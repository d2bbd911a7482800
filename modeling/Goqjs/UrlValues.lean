import Goqjs.NetUrl

/-!
# url.Values

Query strings and the map of their parameters. A map is the list of its entries in
the order in which the keys came; only `Encode` shows an order, and it sorts.
-/

namespace NetUrl

open Qjs Separators

abbrev ampersand : UInt8 := 0x26
abbrev equalsSign : UInt8 := 0x3D
abbrev semicolon : UInt8 := 0x3B

abbrev Values := List (GoString × List GoString)

namespace Values

/-- `m[key]`, where a missing key has no values. -/
def lookup (m : Values) (key : GoString) : List GoString :=
  match m.find? (fun e => e.1 == key) with
  | some e => e.2
  | none => []

/-- `m[key] = values`. -/
def assign (m : Values) (key : GoString) (values : List GoString) : Values :=
  if m.any (fun e => e.1 == key) then
    m.map (fun e => if e.1 == key then (key, values) else e)
  else m ++ [(key, values)]

def get (m : Values) (key : GoString) : GoString := (m.lookup key).head?.getD []

def set (m : Values) (key value : GoString) : Values := m.assign key [value]

def add (m : Values) (key value : GoString) : Values := m.assign key (m.lookup key ++ [value])

def del (m : Values) (key : GoString) : Values := m.filter (fun e => e.1 != key)

def has (m : Values) (key : GoString) : Bool := m.any (fun e => e.1 == key)

/-- The pairs of one key. -/
def pairs (e : GoString × List GoString) : List GoString :=
  e.2.map fun v => escape e.1 .queryComponent ++ equalsSign :: escape v .queryComponent

/-- The keys are sorted as byte strings. -/
def encode (m : Values) : GoString :=
  joinWith [ampersand] ((m.mergeSort (fun a b => a.1 ≤ b.1)).flatMap pairs)

end Values

/-- `urlmaxqueryparams` as it is when nobody sets it. -/
def maxParams : Nat := 10000

/-- The pieces between the ampersands. -/
def pieces : GoString → List GoString
  | [] => [[]]
  | c :: rest =>
    if c = ampersand then [] :: pieces rest
    else
      match pieces rest with
      | [] => [[c]]
      | p :: ps => (c :: p) :: ps

/-- One turn of the loop: an empty piece is nothing, and a malformed one is an error. -/
def parsePair (piece : GoString) : Option (Option (GoString × GoString)) :=
  if semicolon ∈ piece then none
  else if piece = [] then some none
  else do
    let key ← unescape (cut equalsSign piece).1 .queryComponent
    let value ← unescape ((cut equalsSign piece).2.getD []) .queryComponent
    return some (key, value)

/-- The loop of `parseQuery`: the map, and whether there was an error. -/
def parsePairs : List GoString → Values → Values × Bool
  | [], m => (m, false)
  | piece :: rest, m =>
    match parsePair piece with
    | none => ((parsePairs rest m).1, true)
    | some none => parsePairs rest m
    | some (some (key, value)) => parsePairs rest (m.add key value)

/-- `url.ParseQuery`, which returns what it has read also with an error. -/
def ParseQuery (query : GoString) : Values × Bool :=
  if query.count ampersand + 1 > maxParams then ([], true)
  else parsePairs (pieces query) []

/-- `URL.Query`. -/
def URL.query (u : URL) : Values := (ParseQuery u.rawQuery).1

end NetUrl
