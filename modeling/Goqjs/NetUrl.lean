import Goqjs.Bindings
import Goqjs.Percent
import Goqjs.Separators

/-!
# net/url

`url.Parse`, `URL.String` and the coding of every part of a URL. An error is `none`:
the callers drop its text. The check of an IPv6 address in brackets and the resolution
of a reference are parameters where they occur.
-/

namespace NetUrl

open Qjs Separators

abbrev colon : UInt8 := 0x3A
abbrev slash : UInt8 := 0x2F
abbrev question : UInt8 := 0x3F
abbrev hash : UInt8 := 0x23
abbrev atSign : UInt8 := 0x40
abbrev openBracket : UInt8 := 0x5B
abbrev closeBracket : UInt8 := 0x5D

inductive Encoding where
  | path
  | pathSegment
  | host
  | zone
  | userPassword
  | queryComponent
  | fragment
  deriving DecidableEq

def isLetter (c : UInt8) : Bool := (0x61 ≤ c && c ≤ 0x7A) || (0x41 ≤ c && c ≤ 0x5A)

def isDigit (c : UInt8) : Bool := 0x30 ≤ c && c ≤ 0x39

/-- The reserved bytes, `$&+,/:;=?@`. -/
def escapesReserved (c : UInt8) : Encoding → Bool
  | .path => c == question
  | .pathSegment => (ascii "/;,?").contains c
  | .userPassword => (ascii "@/?:").contains c
  | .fragment => false
  | .queryComponent | .host | .zone => true

def shouldEscape (c : UInt8) (mode : Encoding) : Bool :=
  if isLetter c || isDigit c then false
  else if (mode = .host || mode = .zone) && (ascii "!$&'()*+,;=:[]<>\"").contains c then false
  else if (ascii "-_.~").contains c then false
  else if (ascii "$&+,/:;=?@").contains c then escapesReserved c mode
  else if mode = .fragment && (ascii "!()*").contains c then false
  else true

/-- In a host only a byte outside ASCII and `%` itself may be escaped; in a zone what may
stand in a host, a space and `%`. -/
def mayEscape (mode : Encoding) (v : UInt8) : Bool :=
  match mode with
  | .host => !(v.toNat < 0x80) || v = Percent.percent
  | .zone => v = Percent.percent || v = Percent.space || !shouldEscape v .host
  | _ => true

/-- In a host or a zone an ASCII byte that would be escaped is an error. -/
def mayStand (mode : Encoding) (c : UInt8) : Bool :=
  !((mode = .host || mode = .zone) && c.toNat < 0x80 && shouldEscape c mode)

def coding (mode : Encoding) : Percent.Coding where
  escaped c := shouldEscape c mode
  mayEscape := mayEscape mode
  mayStand := mayStand mode
  form := mode = .queryComponent

def unescape (s : GoString) (mode : Encoding) : Option GoString := (coding mode).decode s

def escape (s : GoString) (mode : Encoding) : GoString := (coding mode).encode s

def validEncoded (s : GoString) (mode : Encoding) : Bool :=
  s.all fun c => (ascii "!$&'()*+,;=:@[]%").contains c || !shouldEscape c mode

/-- `password` is `none` where `passwordSet` is false. -/
structure Userinfo where
  username : GoString
  password : Option GoString
  deriving DecidableEq

structure URL where
  scheme : GoString
  opaquePart : GoString
  user : Option Userinfo
  host : GoString
  path : GoString
  rawPath : GoString
  omitHost : Bool
  forceQuery : Bool
  rawQuery : GoString
  fragment : GoString
  rawFragment : GoString
  deriving DecidableEq

def newURL : URL := ⟨[], [], none, [], [], [], false, false, [], [], []⟩

def stringContainsCTLByte (s : GoString) : Bool := s.any fun c => c < 0x20 || c = 0x7F

/-- `strings.ToLower` of ASCII text. -/
def toLower (s : GoString) : GoString := s.map fun c => if 0x41 ≤ c && c ≤ 0x5A then c + 0x20 else c

/-- The loop of `getScheme`, which has read `before`. -/
def schemeFrom (rawURL : GoString) : GoString → GoString → Option (GoString × GoString)
  | _, [] => some ([], rawURL)
  | before, c :: rest =>
    if isLetter c then schemeFrom rawURL (before ++ [c]) rest
    else if isDigit c || (ascii "+-.").contains c then
      if before = [] then some ([], rawURL) else schemeFrom rawURL (before ++ [c]) rest
    else if c = colon then
      if before = [] then none else some (before, rest)
    else some ([], rawURL)

def getScheme (rawURL : GoString) : Option (GoString × GoString) := schemeFrom rawURL [] rawURL

def validUserinfo (s : GoString) : Bool :=
  s.all fun c => isLetter c || isDigit c || (ascii "-._:~!$&'()*+,;=%@").contains c

def validOptionalPort : GoString → Bool
  | [] => true
  | c :: port => c = colon && port.all isDigit

/-- `%25`. -/
def escapedPercent : GoString := ascii "%25"

/-- `hostname[:zoneIdx]` and `hostname[zoneIdx:]`; without a zone all of it and nothing. -/
def cutZone : GoString → GoString × GoString
  | [] => ([], [])
  | c :: rest =>
    if escapedPercent.isPrefixOf (c :: rest) then ([], c :: rest)
    else (c :: (cutZone rest).1, (cutZone rest).2)

/-- The port of a host without brackets, with its colon. PostgreSQL has lists of hosts. -/
def colonPort (scheme host : GoString) : GoString :=
  if scheme = ascii "postgresql" ∨ scheme = ascii "postgres" then
    if colon ∈ host then colon :: (cutLast colon host).2 else []
  else led colon (cut colon host).2

section Parse

-- `isIPv6` says that `netip.ParseAddr` accepts an address and that it is not IPv4.
variable (isIPv6 : GoString → Bool)

/-- A host that starts with a bracket, the bracket taken off. -/
def parseIPLiteral (host : GoString) : Option GoString := do
  let (hostname, port) := cutLast closeBracket host
  let hostname ← hostname
  if !validOptionalPort port then none
  else
    let port ← unescape port .host
    let (hostPart, zonePart) := cutZone hostname
    let hostPart ← unescape hostPart .host
    let zonePart ← unescape zonePart .zone
    if isIPv6 (hostPart ++ zonePart) then
      return openBracket :: (hostPart ++ zonePart) ++ closeBracket :: port
    else none

def parseHost (scheme host : GoString) : Option GoString :=
  match (cutLast openBracket host).1 with
  | some (_ :: _) => none
  | some [] => parseIPLiteral isIPv6 (cutLast openBracket host).2
  | none =>
    if validOptionalPort (colonPort scheme host) then unescape host .host else none

/-- The user information before the last `@`. -/
def parseUserinfo (userinfo : GoString) : Option Userinfo :=
  if !validUserinfo userinfo then none
  else
    match cut colon userinfo with
    | (username, none) => do
      let username ← unescape username .userPassword
      return ⟨username, none⟩
    | (username, some password) => do
      let username ← unescape username .userPassword
      let password ← unescape password .userPassword
      return ⟨username, some password⟩

def parseAuthority (scheme authority : GoString) : Option (Option Userinfo × GoString) := do
  let host ← parseHost isIPv6 scheme (cutLast atSign authority).2
  match (cutLast atSign authority).1 with
  | none => return (none, host)
  | some userinfo => do
    let user ← parseUserinfo userinfo
    return (some user, host)

def setPath (u : URL) (p : GoString) : Option URL := do
  let path ← unescape p .path
  return { u with path := path, rawPath := if p = escape path .path then [] else p }

def setFragment (u : URL) (f : GoString) : Option URL := do
  let frag ← unescape f .fragment
  return { u with fragment := frag, rawFragment := if f = escape frag .fragment then [] else f }

/-- The query behind `rest`: `ForceQuery` where the text ends in its only `?`. -/
def cutQuery (rest : GoString) : GoString × Bool × GoString :=
  if rest.getLast? = some question ∧ rest.count question = 1 then (rest.dropLast, true, [])
  else ((cut question rest).1, false, (cut question rest).2.getD [])

/-- `parse` with `viaRequest` false. -/
def parse (rawURL : GoString) : Option URL :=
  if stringContainsCTLByte rawURL then none
  else if rawURL = ascii "*" then some { newURL with path := ascii "*" }
  else do
    let (scheme, rest) ← getScheme rawURL
    let (rest, forceQuery, rawQuery) := cutQuery rest
    let url := { newURL with scheme := toLower scheme, forceQuery, rawQuery }
    if rest.head? ≠ some slash ∧ url.scheme ≠ [] then return { url with opaquePart := rest }
    else if rest.head? ≠ some slash ∧ colon ∈ (cut slash rest).1 then none
    else if (url.scheme ≠ [] ∨ ¬ ascii "///" <+: rest) ∧ ascii "//" <+: rest then
      let (authority, path) := cut slash (rest.drop 2)
      let (user, host) ← parseAuthority isIPv6 url.scheme authority
      setPath { url with user, host } (led slash path)
    else
      setPath { url with omitHost := url.scheme ≠ [] ∧ rest.head? = some slash } rest

/-- `url.Parse`. -/
def Parse (rawURL : GoString) : Option URL := do
  let (u, frag) := cut hash rawURL
  let url ← parse isIPv6 u
  match frag with
  | none | some [] => return url
  | some frag => setFragment url frag

end Parse

def Userinfo.string (u : Userinfo) : GoString :=
  match u.password with
  | none => escape u.username .userPassword
  | some password => escape u.username .userPassword ++ colon :: escape password .userPassword

namespace URL

variable (u : URL)

/-- The text that a part was parsed from, if it is a valid way to write the part. -/
def rawOr (raw part : GoString) (mode : Encoding) (other : GoString) : GoString :=
  if raw ≠ [] ∧ validEncoded raw mode = true ∧ unescape raw mode = some part then raw else other

def escapedPath : GoString :=
  rawOr u.rawPath u.path .path (if u.path = ascii "*" then ascii "*" else escape u.path .path)

def escapedFragment : GoString :=
  rawOr u.rawFragment u.fragment .fragment (escape u.fragment .fragment)

/-- The scheme and the authority. -/
def stringStart : GoString :=
  (if u.scheme ≠ [] then u.scheme ++ [colon] else []) ++
    if (u.scheme ≠ [] ∨ u.host ≠ [] ∨ u.user ≠ none) ∧
        ¬ (u.omitHost = true ∧ u.host = [] ∧ u.user = none) then
      (if u.host ≠ [] ∨ u.path ≠ [] ∨ u.user ≠ none then [slash, slash] else []) ++
        closed atSign (u.user.map Userinfo.string) ++ escape u.host .host
    else []

/-- The path, so that it is read as one behind `start`. -/
def stringPath (start : GoString) : GoString :=
  let path := u.escapedPath
  if path ≠ [] ∧ path.head? ≠ some slash ∧ u.host ≠ [] then slash :: path
  else if start = [] ∧ colon ∈ (cut slash path).1 then ascii "./" ++ path
  else path

def string : GoString :=
  (if u.opaquePart ≠ [] then
      (if u.scheme ≠ [] then u.scheme ++ [colon] else []) ++ u.opaquePart
    else u.stringStart ++ u.stringPath u.stringStart) ++
    (if u.forceQuery = true ∨ u.rawQuery ≠ [] then question :: u.rawQuery else []) ++
    (if u.fragment ≠ [] then hash :: u.escapedFragment else [])

/-- `splitHostPort`, without the brackets of an address. -/
def splitHostPort (hostPort : GoString) : GoString × GoString :=
  let (host, port) :=
    match cutLast colon hostPort with
    | (some host, port) =>
      if validOptionalPort (colon :: port) then (host, port) else (hostPort, [])
    | (none, _) => (hostPort, [])
  if host.head? = some openBracket ∧ host.getLast? = some closeBracket then
    ((host.drop 1).dropLast, port)
  else (host, port)

def hostname : GoString := (splitHostPort u.host).1

def port : GoString := (splitHostPort u.host).2

/-- `User.Username` and `User.Password`, which a missing user answers too. -/
def username : GoString := (u.user.map Userinfo.username).getD []

def password : GoString := (u.user.bind Userinfo.password).getD []

end URL

end NetUrl
