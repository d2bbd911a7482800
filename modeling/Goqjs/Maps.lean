import Mathlib.Logic.Function.Basic

/-!
# Maps of the engine

The records of a `Map` or a `Set`, the table of buckets over them, the iterators and the calls of
`forEach`, as `quickjs.c` has them. A record that is deleted under an iterator stays in the list
without an entry until the last iterator leaves it. A call that touches a freed record, that
fails an assertion, or that counts a record more often than an `int` can gives `none`.
-/

namespace Maps

/-- `map_hash_key` and `js_same_value_zero`, on keys that `map_normalize_key` has passed, and that
have one hash if they are the same. -/
structure Keys (κ : Type) where
  hash : κ → UInt32
  same : κ → κ → Bool
  refl : ∀ k, same k k = true
  symm : ∀ {k k'}, same k k' = true → same k' k = true
  trans : ∀ {k k' k''}, same k k' = true → same k' k'' = true → same k k'' = true
  hash_eq : ∀ {k k'}, same k k' = true → hash k = hash k'

/-- `JSMapRecord`; without an entry it is `empty`. -/
structure MapRecord (κ V : Type) where
  refCount : Nat
  entry : Option (κ × V)

/-- `cur_record` and `obj` of an iterator: at the start the one is null, at the end the other is
undefined. -/
inductive Place where
  | start
  | on (r : Nat)
  | finished
  deriving DecidableEq

/-- `JSMapIteratorData`, or a call of `js_map_forEach` that is under way. -/
structure MapIterator where
  forEach : Bool
  place : Place
  deriving DecidableEq

/-- `JSMapState`, the memory of its records, and the iterators over it. -/
structure MapState (κ V : Type) where
  records : List Nat
  record : Nat → Option (MapRecord κ V)
  recordCount : Nat
  hashTable : List (List Nat)
  recordCountThreshold : Nat
  iterators : Nat → Option MapIterator
  nextRecord : Nat
  nextIterator : Nat

/-- The answer of a call. -/
inductive Answer (κ V : Type) where
  | undefined
  | value (v : Option V)
  | truth (b : Bool)
  | count (n : Nat)
  | iterator (i : Nat)
  | entry (e : κ × V)
  | done
  | notIterator
  deriving DecidableEq

/-- One call into a map. `freed` lists the iterators of this map that the engine finalizes with the
key and the value that the call frees; `clear` has a list for each record. `insertComputed` is
`js_map_getOrInsert` after its callback, `resume` is `js_map_forEach` after its callback, and
`abort` the same after a callback that threw. -/
inductive Op (κ V : Type) where
  | set (k : κ) (v : V) (freed : List Nat)
  | get (k : κ)
  | has (k : κ)
  | getOrInsert (k : κ) (v : V)
  | insertComputed (k : κ) (v : V) (freed : List Nat)
  | delete (k : κ) (freed : List Nat)
  | clear (freed : Nat → List Nat)
  | size
  | iterate
  | next (i : Nat)
  | finalize (i : Nat)
  | forEach
  | resume (i : Nat) (freed : List Nat)
  | abort (i : Nat)

/-- The records of the list behind this one. -/
def after (r : Nat) (l : List Nat) : List Nat := (l.dropWhile fun t => t != r).drop 1

/-- What a `uint32_t` holds of a number. -/
def uint32 (n : Nat) : Nat := n % 4294967296

theorem uint32_of_lt {n : Nat} (small : n < 4294967296) : uint32 n = n := Nat.mod_eq_of_lt small

/-- A `uint32_t` less one. -/
def uint32Pred (n : Nat) : Nat := if n = 0 then 4294967295 else n - 1

/-- The greatest `int`. -/
def intMax : Nat := 2147483647

def bucketOf {κ : Type} (K : Keys κ) (hashSize : Nat) (k : κ) : Nat :=
  (K.hash k).toNat &&& (hashSize - 1)

namespace MapState

variable {κ V : Type}

/-- What `js_map_constructor` sets up. -/
def init : MapState κ V := ⟨[], fun _ => none, 0, [[]], 4, fun _ => none, 0, 0⟩

def entryAt (s : MapState κ V) (r : Nat) : Option (κ × V) := (s.record r).bind MapRecord.entry

def putRecord (s : MapState κ V) (r : Nat) (mr : MapRecord κ V) : MapState κ V :=
  { s with record := Function.update s.record r (some mr) }

def putIterator (s : MapState κ V) (i : Nat) (it : Option MapIterator) : MapState κ V :=
  { s with iterators := Function.update s.iterators i it }

/-- `list_del(&mr->link)` and `js_free_rt(rt, mr)`. -/
def freeRecord (s : MapState κ V) (r : Nat) : MapState κ V :=
  { s with records := s.records.erase r, record := Function.update s.record r none }

@[simp] theorem putRecord_record (s : MapState κ V) (r : Nat) (mr : MapRecord κ V) :
    (s.putRecord r mr).record = Function.update s.record r (some mr) := rfl

@[simp] theorem putIterator_iterators (s : MapState κ V) (i : Nat) (it : Option MapIterator) :
    (s.putIterator i it).iterators = Function.update s.iterators i it := rfl

@[simp] theorem putIterator_entryAt (s : MapState κ V) (i : Nat) (it : Option MapIterator) :
    (s.putIterator i it).entryAt = s.entryAt := rfl

@[simp] theorem freeRecord_record (s : MapState κ V) (r : Nat) :
    (s.freeRecord r).record = Function.update s.record r none := rfl

/-- `mr->link.next` of a record that is there; `none` inside is the head of the list. -/
def linkNext (s : MapState κ V) (r : Nat) : Option (Option Nat) :=
  if r ∈ s.records then some (after r s.records).head? else none

/-- The loop of `map_find_record`; a record that is freed or empty is in no bucket. -/
def findIn (K : Keys κ) (s : MapState κ V) (k : κ) : List Nat → Option (Option Nat)
  | [] => some none
  | r :: l =>
    match s.entryAt r with
    | none => none
    | some e => if K.same e.1 k then some (some r) else findIn K s k l

def mapFindRecord (K : Keys κ) (s : MapState κ V) (k : κ) : Option (Option Nat) :=
  findIn K s k (s.hashTable.getD (bucketOf K s.hashTable.length k) [])

/-- One turn of the loop of `map_hash_resize`. -/
def rehash (K : Keys κ) (s : MapState κ V) (newHashSize : Nat) (table : List (List Nat))
    (r : Nat) : List (List Nat) :=
  match s.entryAt r with
  | none => table
  | some e => table.modify (bucketOf K newHashSize e.1) fun l => l ++ [r]

def newHashSize (hashSize : Nat) : Nat := if hashSize = 1 then 4 else uint32 (hashSize * 2)

def mapHashResize (K : Keys κ) (s : MapState κ V) : MapState κ V :=
  let n := newHashSize s.hashTable.length
  { s with
    hashTable := s.records.foldl (rehash K s n) (List.replicate n [])
    recordCountThreshold := uint32 (n * 2) }

/-- `map_add_record` up to the test of the threshold, and the value that its callers store. -/
def linkRecord (K : Keys κ) (s : MapState κ V) (k : κ) (v : V) : MapState κ V :=
  { s with
    records := s.records ++ [s.nextRecord]
    record := Function.update s.record s.nextRecord (some ⟨1, some (k, v)⟩)
    hashTable := s.hashTable.modify (bucketOf K s.hashTable.length k) fun l => l ++ [s.nextRecord]
    recordCount := uint32 (s.recordCount + 1)
    nextRecord := s.nextRecord + 1 }

def mapAddRecord (K : Keys κ) (s : MapState κ V) (k : κ) (v : V) : MapState κ V :=
  let t := linkRecord K s k v
  if t.recordCountThreshold ≤ t.recordCount then mapHashResize K t else t

def mapDecrefRecord (s : MapState κ V) (r : Nat) : Option (MapState κ V) :=
  match s.record r with
  | none => none
  | some mr =>
    if mr.refCount = 1 then
      -- assert(mr->empty)
      if mr.entry.isSome then none else some (s.freeRecord r)
    else some (s.putRecord r { mr with refCount := mr.refCount - 1 })

/-- An iterator gives up its lock. Where it is then is written down at once, as nothing reads
`cur_record` before it is set again. -/
def leave (s : MapState κ V) (i : Nat) (place : Place) (it : Option MapIterator) :
    Option (MapState κ V) :=
  match place with
  | .on r => (s.mapDecrefRecord r).map fun s => s.putIterator i it
  | _ => some (s.putIterator i it)

/-- `js_map_iterator_finalizer`. -/
def mapIteratorFinalizer (s : MapState κ V) (i : Nat) : Option (MapState κ V) :=
  match s.iterators i with
  | none => some s
  | some it => if it.forEach then some s else s.leave i it.place none

/-- `JS_FreeValueRT` of what these iterators are reached from. -/
def freeValues (s : MapState κ V) : List Nat → Option (MapState κ V)
  | [] => some s
  | i :: l => (s.mapIteratorFinalizer i).bind fun s => s.freeValues l

def mapDeleteRecord (s : MapState κ V) (r : Nat) (freed : List Nat) : Option (MapState κ V) :=
  match s.record r with
  | none => none
  | some mr =>
    if mr.entry.isNone then some s
    else
      let t := { s with hashTable := s.hashTable.map fun (l : List Nat) => l.erase r }
      (t.freeValues freed).bind fun s =>
        match s.record r with
        | none => none
        | some mr =>
          -- a record that an iterator is on stays, without its entry
          let t := if mr.refCount = 1 then s.freeRecord r else s.putRecord r ⟨mr.refCount - 1, none⟩
          some { t with recordCount := uint32Pred t.recordCount }

def jsMapSet (K : Keys κ) (s : MapState κ V) (k : κ) (v : V) (freed : List Nat) :
    Option (MapState κ V) :=
  (mapFindRecord K s k).bind fun found =>
    match found with
    | none => some (mapAddRecord K s k v)
    | some r =>
      (s.freeValues freed).bind fun s =>
        (s.record r).map fun mr =>
          s.putRecord r { mr with entry := mr.entry.map fun e => (e.1, v) }

def jsMapGet (K : Keys κ) (s : MapState κ V) (k : κ) : Option (Option V) :=
  (mapFindRecord K s k).map fun found => (found.bind s.entryAt).map Prod.snd

def jsMapHas (K : Keys κ) (s : MapState κ V) (k : κ) : Option Bool :=
  (mapFindRecord K s k).map Option.isSome

def jsMapGetOrInsert (K : Keys κ) (s : MapState κ V) (k : κ) (v : V) :
    Option (Option V × MapState κ V) :=
  (mapFindRecord K s k).map fun found =>
    match found with
    | none => (some v, mapAddRecord K s k v)
    | some r => ((s.entryAt r).map Prod.snd, s)

/-- `js_map_getOrInsert` from the return of its callback on. -/
def jsMapInsertComputed (K : Keys κ) (s : MapState κ V) (k : κ) (v : V) (freed : List Nat) :
    Option (MapState κ V) :=
  (mapFindRecord K s k).bind fun found =>
    match found with
    | none => some (mapAddRecord K s k v)
    | some r => (s.mapDeleteRecord r freed).map fun s => mapAddRecord K s k v

def jsMapDelete (K : Keys κ) (s : MapState κ V) (k : κ) (freed : List Nat) :
    Option (Bool × MapState κ V) :=
  (mapFindRecord K s k).bind fun found =>
    match found with
    | none => some (false, s)
    | some r => (s.mapDeleteRecord r freed).map fun s => (true, s)

/-- `list_for_each_safe` of `js_map_clear` from a record on: the next record is read before this
one is deleted. -/
def clearFrom (freed : Nat → List Nat) : Nat → MapState κ V → Option Nat → Option (MapState κ V)
  | 0, _, _ => none
  | _ + 1, s, none => some s
  | fuel + 1, s, some r =>
    (s.linkNext r).bind fun el =>
      (s.mapDeleteRecord r (freed r)).bind fun s => clearFrom freed fuel s el

def jsMapClear (s : MapState κ V) (freed : Nat → List Nat) : Option (MapState κ V) :=
  clearFrom freed (s.records.length + 1) s s.records.head?

def jsCreateMapIterator (s : MapState κ V) (forEach : Bool) : MapState κ V :=
  { s.putIterator s.nextIterator (some ⟨forEach, .start⟩) with nextIterator := s.nextIterator + 1 }

/-- The records from one on, if it is there; the head of the list has none behind it. -/
def linksFrom (s : MapState κ V) : Option Nat → Option (List Nat)
  | none => some []
  | some r => if r ∈ s.records then some (r :: after r s.records) else none

/-- The loop of `js_map_iterator_next` and of `js_map_forEach`: past empty records to the first
other one, which gets a lock. -/
def moveTo (s : MapState κ V) (i : Nat) (forEach : Bool) (el : Option Nat) :
    Option (Answer κ V × MapState κ V) :=
  (s.linksFrom el).bind fun l =>
    match l.find? fun r => (s.entryAt r).isSome with
    | none => some (.done, s.putIterator i (some ⟨forEach, .finished⟩))
    | some r =>
      (s.record r).bind fun mr =>
        if mr.refCount < intMax then
          mr.entry.map fun e =>
            (.entry e, (s.putRecord r { mr with refCount := mr.refCount + 1 }).putIterator i
              (some ⟨forEach, .on r⟩))
        else none

/-- `js_map_iterator_next`, and `js_map_forEach` from the return of its callback on, which frees
what the callback returned before it looks at the next record. Only a callback has something to
free. -/
def advance (s : MapState κ V) (i : Nat) (it : MapIterator) (freed : List Nat) :
    Option (Answer κ V × MapState κ V) :=
  match it.place with
  | .finished => some (.done, s)
  | .start => (s.freeValues freed).bind fun s => s.moveTo i it.forEach s.records.head?
  | .on r =>
    (s.linkNext r).bind fun el =>
      (s.leave i (.on r) (some ⟨it.forEach, .finished⟩)).bind fun s =>
        (s.freeValues freed).bind fun s => s.moveTo i it.forEach el

def jsMapIteratorNext (s : MapState κ V) (i : Nat) : Option (Answer κ V × MapState κ V) :=
  match s.iterators i with
  | none => some (.notIterator, s)
  | some it => if it.forEach then some (.notIterator, s) else s.advance i it []

def jsMapForEach (s : MapState κ V) : Option (Answer κ V × MapState κ V) :=
  (s.jsCreateMapIterator true).advance s.nextIterator ⟨true, .start⟩ []

def jsMapForEachResume (s : MapState κ V) (i : Nat) (freed : List Nat) :
    Option (Answer κ V × MapState κ V) :=
  match s.iterators i with
  | none => some (.notIterator, s)
  | some it => if it.forEach then s.advance i it freed else some (.notIterator, s)

/-- `js_map_forEach` when its callback throws. -/
def jsMapForEachAbort (s : MapState κ V) (i : Nat) : Option (MapState κ V) :=
  match s.iterators i with
  | none => some s
  | some it => if it.forEach then s.leave i it.place none else some s

def exec (K : Keys κ) (s : MapState κ V) : Op κ V → Option (Answer κ V × MapState κ V)
  | .set k v freed => (jsMapSet K s k v freed).map fun s => (.undefined, s)
  | .get k => (jsMapGet K s k).map fun v => (.value v, s)
  | .has k => (jsMapHas K s k).map fun b => (.truth b, s)
  | .getOrInsert k v => (jsMapGetOrInsert K s k v).map fun t => (.value t.1, t.2)
  | .insertComputed k v freed =>
    (jsMapInsertComputed K s k v freed).map fun s => (.value (some v), s)
  | .delete k freed => (jsMapDelete K s k freed).map fun t => (.truth t.1, t.2)
  | .clear freed => (s.jsMapClear freed).map fun s => (.undefined, s)
  | .size => some (.count s.recordCount, s)
  | .iterate => some (.iterator s.nextIterator, s.jsCreateMapIterator false)
  | .next i => s.jsMapIteratorNext i
  | .finalize i => (s.mapIteratorFinalizer i).map fun s => (.undefined, s)
  | .forEach => s.jsMapForEach
  | .resume i freed => s.jsMapForEachResume i freed
  | .abort i => (s.jsMapForEachAbort i).map fun s => (.undefined, s)

def execAll (K : Keys κ) (s : MapState κ V) :
    List (Op κ V) → Option (List (Answer κ V) × MapState κ V)
  | [] => some ([], s)
  | op :: ops =>
    (exec K s op).bind fun t => (execAll K t.2 ops).map fun u => (t.1 :: u.1, u.2)

end MapState

end Maps
