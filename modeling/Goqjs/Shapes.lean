import Goqjs.ChainedIndex
import Mathlib.Algebra.Group.Nat.Defs
import Mathlib.Logic.Function.Basic

/-!
# Shapes

Names and flags of the properties of an object stand in its shape, their values in the object.
Objects that got the same properties in the same order share a shape, which the runtime finds in a
hash table. Before a shape is changed it is made one that nobody else has.

An array is a list and a chain of shapes the list of its links; `prop_count` and `prop_hash_mask`
are lengths of lists. A shape that is moved to a larger block keeps its number.
-/

namespace Shapes

open ChainedIndex

/-- `JSAtom`. -/
abbrev Atom := UInt32

/-- `JS_ATOM_NULL`, which marks a deleted property. -/
def atomNull : Atom := 0

structure ShapeProperty where
  hashNext : Nat
  flags : Fin 64
  atom : Atom

structure Shape where
  refCount : Nat
  isHashed : Bool
  hash : UInt32
  propHash : List Nat
  propSize : Nat
  deletedPropCount : Nat
  proto : Option Nat
  prop : List ShapeProperty

structure JSObject (V : Type) where
  shape : Nat
  prop : List V

structure Runtime (V : Type) where
  shapes : Nat → Option Shape
  nextShape : Nat
  shapeHashBits : Nat
  shapeHash : Nat → List Nat
  shapeHashCount : Nat
  objects : Nat → Option (JSObject V)
  nextObject : Nat

/-- `JS_PROP_C_W_E`. -/
def propCWE : Fin 64 := 7

/-- `JS_PROP_CONFIGURABLE`. -/
def configurable (flags : Fin 64) : Bool := flags.val % 2 == 1

def hash32 (a : UInt32) : UInt32 := a * 0x61c88647

def shapeHash (h val : UInt32) : UInt32 := hash32 (h + val)

def getShapeHash (h : UInt32) (bits : Nat) : Nat := h.toNat >>> (32 - bits)

/-- The address of the prototype goes in by its two halves. -/
def shapeInitialHash (proto : Option Nat) : UInt32 :=
  shapeHash (shapeHash 1 (.ofNat (proto.getD 0))) (.ofNat (proto.getD 0 / 2 ^ 32))

/-- `atom & prop_hash_mask`. -/
def propBucket (atom : Atom) (hashSize : Nat) : Nat := atom.toNat &&& (hashSize - 1)

/-- The loop of `find_own_property` and of `delete_property`: the place of a property and the
place of the one in front of it in its bucket. -/
def findProperty (sh : Shape) (atom : Atom) : Option (Nat × Option Nat) :=
  walk ShapeProperty.hashNext (fun pr => pr.atom == atom) sh.prop (sh.prop.length + 1) none
    (sh.propHash.getD (propBucket atom sh.propHash.length) 0)

/-- A property in front of its bucket. `hash_next` has 26 bits. -/
def linkProperty (heads : List Nat) (prop : List ShapeProperty) (atom : Atom) (flags : Fin 64) :
    List Nat × List ShapeProperty :=
  let h := propBucket atom heads.length
  (heads.set h (prop.length + 1), prop ++ [⟨heads.getD h 0 % 2 ^ 26, flags, atom⟩])

/-- One turn of the loops that fill a new hash table. -/
def relinkOne (t : List Nat × List ShapeProperty) (pr : ShapeProperty) :
    List Nat × List ShapeProperty :=
  if pr.atom ≠ atomNull then linkProperty t.1 t.2 pr.atom pr.flags else (t.1, t.2 ++ [pr])

def relink (hashSize : Nat) (prop : List ShapeProperty) : List Nat × List ShapeProperty :=
  prop.foldl relinkOne (List.replicate hashSize 0, [])

/-- `while (new_hash_size < new_size) new_hash_size = 2 * new_hash_size`. -/
def growHash (newSize hashSize : Nat) : Nat :=
  if 0 < hashSize ∧ hashSize < newSize then growHash newSize (2 * hashSize) else hashSize
termination_by newSize - hashSize

/-- `while ((new_hash_size / 2) >= new_size) new_hash_size = new_hash_size / 2`. -/
def shrinkHash (newSize hashSize : Nat) : Nat :=
  if 0 < hashSize / 2 ∧ newSize ≤ hashSize / 2 then shrinkHash newSize (hashSize / 2) else hashSize
termination_by hashSize

/-- `resize_properties`. -/
def resizeProperties (sh : Shape) (count : Nat) : Shape :=
  let newSize := max count (sh.propSize * 3 / 2)
  let newHashSize := growHash newSize sh.propHash.length
  if newHashSize ≠ sh.propHash.length then
    let t := relink newHashSize sh.prop
    { sh with propHash := t.1, prop := t.2, propSize := newSize }
  else { sh with propSize := newSize }

/-- What `compact_properties` leaves of the values of an object. -/
def liveValues {V : Type} (prop : List ShapeProperty) (values : List V) : List V :=
  ((prop.zip values).filter fun e => e.1.atom ≠ atomNull).map Prod.snd

/-- `compact_properties`, with its assertions. -/
def compactProperties {V : Type} (sh : Shape) (values : List V) : Option (Shape × List V) :=
  if sh.isHashed then none
  else
    let newSize := max 2 (sh.prop.length - sh.deletedPropCount)
    if sh.propSize < newSize then none
    else
      let t := relink (shrinkHash newSize sh.propHash.length)
        (sh.prop.filter fun pr => pr.atom ≠ atomNull)
      if t.2.length ≠ sh.prop.length - sh.deletedPropCount then none
      else
        some ({ sh with propHash := t.1, prop := t.2, propSize := newSize, deletedPropCount := 0 },
          liveValues sh.prop values)

/-- The end of `add_shape_property`, behind `resize_properties` if the array is full. -/
def addShapeProperty (sh : Shape) (atom : Atom) (flags : Fin 64) : Shape :=
  let sh := if sh.propSize ≤ sh.prop.length then resizeProperties sh (sh.prop.length + 1) else sh
  let t := linkProperty sh.propHash sh.prop atom flags
  { sh with propHash := t.1, prop := t.2 }

/-- The property at `i`, behind `before` in its bucket, is taken out and marked as deleted. -/
def unlinkProperty (sh : Shape) (atom : Atom) (i : Nat) (before : Option Nat) (pr : ShapeProperty) :
    Shape :=
  let deleted := { pr with flags := 0, atom := atomNull }
  match before with
  | none =>
    { sh with
      propHash := sh.propHash.set (propBucket atom sh.propHash.length) pr.hashNext
      prop := sh.prop.set i deleted
      deletedPropCount := sh.deletedPropCount + 1 }
  | some j =>
    { sh with
      prop := (sh.prop.modify j fun lpr => { lpr with hashNext := pr.hashNext }).set i deleted
      deletedPropCount := sh.deletedPropCount + 1 }

section Runtime

variable {V : Type}

def Runtime.putShape (rt : Runtime V) (s : Nat) (sh : Option Shape) : Runtime V :=
  { rt with shapes := Function.update rt.shapes s sh }

def Runtime.putObject (rt : Runtime V) (o : Nat) (p : Option (JSObject V)) : Runtime V :=
  { rt with objects := Function.update rt.objects o p }

/-- `js_shape_hash_link` of a shape with this hash. -/
def jsShapeHashLink (rt : Runtime V) (s : Nat) (hash : UInt32) : Runtime V :=
  let h := getShapeHash hash rt.shapeHashBits
  { rt with
    shapeHash := Function.update rt.shapeHash h (s :: rt.shapeHash h)
    shapeHashCount := rt.shapeHashCount + 1 }

/-- `js_shape_hash_unlink`, whose loop needs the shape to be there. -/
def jsShapeHashUnlink (rt : Runtime V) (s : Nat) (hash : UInt32) : Option (Runtime V) :=
  let h := getShapeHash hash rt.shapeHashBits
  if s ∈ rt.shapeHash h then
    some { rt with
      shapeHash := Function.update rt.shapeHash h ((rt.shapeHash h).erase s)
      shapeHashCount := rt.shapeHashCount - 1 }
  else none

/-- `resize_shape_hash` to one bit more. -/
def resizeShapeHash (rt : Runtime V) : Runtime V :=
  let bits := rt.shapeHashBits + 1
  let move (table : Nat → List Nat) (s : Nat) : Nat → List Nat :=
    let h := getShapeHash ((rt.shapes s).elim 0 Shape.hash) bits
    Function.update table h (s :: table h)
  { rt with
    shapeHashBits := bits
    shapeHash := ((List.range (2 ^ rt.shapeHashBits)).flatMap rt.shapeHash).foldl move fun _ => [] }

/-- `js_new_shape_nohash`; the number of the new shape is `nextShape`. -/
def jsNewShapeNohash (rt : Runtime V) (proto : Option Nat) (hashSize propSize : Nat) : Runtime V :=
  { rt.putShape rt.nextShape
      (some ⟨1, false, 0, List.replicate hashSize 0, propSize, 0, proto, []⟩) with
    nextShape := rt.nextShape + 1 }

/-- `js_new_shape`, which inserts the new shape in the table. -/
def jsNewShape (rt : Runtime V) (proto : Option Nat) : Runtime V :=
  let rt := if 2 * (rt.shapeHashCount + 1) > 2 ^ rt.shapeHashBits then resizeShapeHash rt else rt
  let hash := shapeInitialHash proto
  jsShapeHashLink
    { rt.putShape rt.nextShape (some ⟨1, true, hash, List.replicate 4 0, 2, 0, proto, []⟩) with
      nextShape := rt.nextShape + 1 } rt.nextShape hash

/-- `js_clone_shape`, inserted in the table if `hashed`. -/
def jsCloneShape (rt : Runtime V) (sh : Shape) (hashed : Bool) : Runtime V :=
  let copy := { rt.putShape rt.nextShape (some { sh with refCount := 1, isHashed := hashed }) with
    nextShape := rt.nextShape + 1 }
  if hashed then jsShapeHashLink copy rt.nextShape sh.hash else copy

/-- `js_free_shape`, with the assertion of `js_free_shape0`. -/
def jsFreeShape (rt : Runtime V) (s : Nat) : Option (Runtime V) :=
  (rt.shapes s).bind fun sh =>
    if sh.refCount = 0 then none
    else if sh.refCount = 1 then
      if sh.isHashed then (jsShapeHashUnlink rt s sh.hash).map (·.putShape s none)
      else some (rt.putShape s none)
    else some (rt.putShape s (some { sh with refCount := sh.refCount - 1 }))

/-- `find_hashed_shape_proto`. -/
def findHashedShapeProto (rt : Runtime V) (proto : Option Nat) : Option Nat :=
  let h := shapeInitialHash proto
  (rt.shapeHash (getShapeHash h rt.shapeHashBits)).find? fun s =>
    (rt.shapes s).any fun sh => sh.hash == h && sh.proto == proto && sh.prop.length == 0

/-- Names and flags of the properties. -/
def names (prop : List ShapeProperty) : List (Atom × Fin 64) := prop.map fun pr => (pr.atom, pr.flags)

/-- `find_hashed_shape_prop`. -/
def findHashedShapeProp (rt : Runtime V) (sh : Shape) (atom : Atom) (flags : Fin 64) : Option Nat :=
  let h := shapeHash (shapeHash sh.hash atom) (.ofNat flags.val)
  (rt.shapeHash (getShapeHash h rt.shapeHashBits)).find? fun s =>
    (rt.shapes s).any fun sh1 =>
      sh1.hash == h && sh1.proto == sh.proto && names sh1.prop == names sh.prop ++ [(atom, flags)]

/-- `JS_NewObjectFromShape`. -/
def newObjectFromShape (rt : Runtime V) (s : Nat) : Runtime V :=
  { rt.putObject rt.nextObject (some ⟨s, []⟩) with nextObject := rt.nextObject + 1 }

/-- `JS_NewObjectProtoClass`. -/
def newObjectProtoClass (rt : Runtime V) (proto : Option Nat) : Runtime V :=
  match findHashedShapeProto rt proto with
  | some s =>
    newObjectFromShape
      (rt.putShape s ((rt.shapes s).map fun sh => { sh with refCount := sh.refCount + 1 })) s
  | none => newObjectFromShape (jsNewShape rt proto) rt.nextShape

/-- `JS_NewObjectProtoClassAlloc`: the shape is not hashed. -/
def newObjectProtoClassAlloc (rt : Runtime V) (proto : Option Nat) (nAllocProps : Nat) : Runtime V :=
  let rt' :=
    if nAllocProps ≤ 2 then jsNewShapeNohash rt proto 4 2
    else jsNewShapeNohash rt proto (2 ^ ((nAllocProps - 1).log2 + 1)) nAllocProps
  newObjectFromShape rt' rt.nextShape

/-- The object gets another shape, and its own is given up. -/
def replaceShape (rt : Runtime V) (o : Nat) (p : JSObject V) (s : Nat) (values : List V) :
    Option (Runtime V) :=
  (jsFreeShape rt p.shape).map fun rt => rt.putObject o (some ⟨s, values⟩)

/-- `js_shape_prepare_update`. -/
def jsShapePrepareUpdate (rt : Runtime V) (o : Nat) : Option (Runtime V) :=
  (rt.objects o).bind fun p => (rt.shapes p.shape).bind fun sh =>
    if sh.isHashed then
      if sh.refCount ≠ 1 then replaceShape (jsCloneShape rt sh false) o p rt.nextShape p.prop
      else
        (jsShapeHashUnlink rt p.shape sh.hash).map fun rt =>
          rt.putShape p.shape (some { sh with isHashed := false })
    else some rt

/-- The last part of `add_property`: the shape is this object's alone. -/
def addOwnShapeProperty (rt : Runtime V) (o : Nat) (atom : Atom) (flags : Fin 64) (v : V) :
    Option (Runtime V) :=
  (rt.objects o).bind fun p => (rt.shapes p.shape).bind fun sh =>
    if sh.refCount ≠ 1 then none
    else
      let rt := rt.putObject o (some ⟨p.shape, p.prop ++ [v]⟩)
      if sh.isHashed then
        let hash := shapeHash (shapeHash sh.hash atom) (.ofNat flags.val)
        (jsShapeHashUnlink rt p.shape sh.hash).map fun rt =>
          jsShapeHashLink
            (rt.putShape p.shape (some { addShapeProperty sh atom flags with hash := hash }))
            p.shape hash
      else some (rt.putShape p.shape (some (addShapeProperty sh atom flags)))

/-- `add_property`; the caller writes the value. -/
def addProperty (rt : Runtime V) (o : Nat) (atom : Atom) (flags : Fin 64) (v : V) :
    Option (Runtime V) :=
  (rt.objects o).bind fun p => (rt.shapes p.shape).bind fun sh =>
    if sh.isHashed then
      match findHashedShapeProp rt sh atom flags with
      | some s =>
        replaceShape
          (rt.putShape s ((rt.shapes s).map fun sh1 => { sh1 with refCount := sh1.refCount + 1 }))
          o p s (p.prop ++ [v])
      | none =>
        if sh.refCount ≠ 1 then
          (replaceShape (jsCloneShape rt sh true) o p rt.nextShape p.prop).bind fun rt =>
            addOwnShapeProperty rt o atom flags v
        else addOwnShapeProperty rt o atom flags v
    else addOwnShapeProperty rt o atom flags v

inductive Op (V : Type) where
  | create (proto : Option Nat)
  | createAlloc (proto : Option Nat) (nAllocProps : Nat)
  | free (o : Nat)
  | set (o : Nat) (atom : Atom) (v : V)
  | updateFlags (o : Nat) (atom : Atom) (flags : Fin 64)
  | delete (o : Nat) (atom : Atom)
  | setPrototype (o : Nat) (proto : Option Nat)

/-- The call names an object that is there, and no deleted name; for `n_alloc_props` the `int`
`1 << hash_bits` is a size. -/
def Op.allowed (there : Nat → Bool) : Op V → Bool
  | create _ => true
  | createAlloc _ nAllocProps => decide (nAllocProps ≤ 1 <<< 30)
  | free o => there o
  | set o atom _ => there o && atom != atomNull
  | updateFlags o atom _ => there o && atom != atomNull
  | delete o atom => there o && atom != atomNull
  | setPrototype o _ => there o

/-- The end of `free_object`, as far as the shape goes. -/
def freeObject (rt : Runtime V) (o : Nat) : Option (Runtime V) :=
  (rt.objects o).bind fun p => (jsFreeShape rt p.shape).map (·.putObject o none)

/-- A write that the flags permit: the value of a property that is there, or a new property. The
refusal of a read-only property is not modelled. -/
def setProperty (rt : Runtime V) (o : Nat) (atom : Atom) (v : V) : Option (Runtime V) :=
  (rt.objects o).bind fun p => (rt.shapes p.shape).bind fun sh =>
    match findProperty sh atom with
    | some (i, _) => some (rt.putObject o (some ⟨p.shape, p.prop.set i v⟩))
    | none => addProperty rt o atom propCWE v

/-- `js_update_property_flags` of the property with this name. -/
def jsUpdatePropertyFlags (rt : Runtime V) (o : Nat) (atom : Atom) (flags : Fin 64) :
    Option (Runtime V) :=
  (rt.objects o).bind fun p => (rt.shapes p.shape).bind fun sh =>
    match findProperty sh atom with
    | none => some rt
    | some (i, _) => (sh.prop[i]?).bind fun pr =>
      if flags = pr.flags then some rt
      else
        (jsShapePrepareUpdate rt o).bind fun rt =>
          (rt.objects o).bind fun p => (rt.shapes p.shape).map fun sh =>
            let prop := sh.prop.modify i fun pr => { pr with flags := flags }
            rt.putShape p.shape (some { sh with prop := prop })

/-- What is left of `delete_property` when its shape can be changed. -/
def deleteFound (rt : Runtime V) (o : Nat) (atom : Atom) (i : Nat) (before : Option Nat)
    (pr : ShapeProperty) : Option (Runtime V) :=
  (rt.objects o).bind fun p => (rt.shapes p.shape).bind fun sh =>
    let sh := unlinkProperty sh atom i before pr
    if 8 ≤ sh.deletedPropCount ∧ sh.prop.length / 2 ≤ sh.deletedPropCount then
      (compactProperties sh p.prop).map fun t =>
        (rt.putShape p.shape (some t.1)).putObject o (some ⟨p.shape, t.2⟩)
    else some (rt.putShape p.shape (some sh))

/-- `delete_property` of an object that is not exotic: whether the property is gone. -/
def deleteProperty (rt : Runtime V) (o : Nat) (atom : Atom) : Option (Bool × Runtime V) :=
  (rt.objects o).bind fun p => (rt.shapes p.shape).bind fun sh =>
    match findProperty sh atom with
    | none => some (true, rt)
    | some (i, before) => (sh.prop[i]?).bind fun pr =>
      if !configurable pr.flags then some (false, rt)
      else
        (jsShapePrepareUpdate rt o).bind fun rt =>
          (deleteFound rt o atom i before pr).map fun rt => (true, rt)

/-- `JS_SetPrototypeInternal` of an extensible object, when the new prototype closes no cycle. -/
def setPrototype (rt : Runtime V) (o : Nat) (proto : Option Nat) : Option (Runtime V) :=
  (rt.objects o).bind fun p => (rt.shapes p.shape).bind fun sh =>
    if sh.proto = proto then some rt
    else
      (jsShapePrepareUpdate rt o).bind fun rt =>
        (rt.objects o).bind fun p => (rt.shapes p.shape).map fun sh =>
          rt.putShape p.shape (some { sh with proto := proto })

/-- A call and what it returns; `none` is an assertion that fails. -/
def exec (rt : Runtime V) : Op V → Option (Bool × Runtime V)
  | .create proto => some (true, newObjectProtoClass rt proto)
  | .createAlloc proto n => some (true, newObjectProtoClassAlloc rt proto n)
  | .free o => (freeObject rt o).map fun rt => (true, rt)
  | .set o atom v => (setProperty rt o atom v).map fun rt => (true, rt)
  | .updateFlags o atom flags => (jsUpdatePropertyFlags rt o atom flags).map fun rt => (true, rt)
  | .delete o atom => deleteProperty rt o atom
  | .setPrototype o proto => (setPrototype rt o proto).map fun rt => (true, rt)

/-- The runtime at its start. -/
def Runtime.init : Runtime V := ⟨fun _ => none, 0, 6, fun _ => [], 0, fun _ => none, 0⟩

/-- Calls one after another, with what they return. One that is not allowed does not happen. -/
def execAll (rt : Runtime V) : List (Op V) → Option (List Bool × Runtime V)
  | [] => some ([], rt)
  | op :: ops =>
    if op.allowed (fun o => (rt.objects o).isSome) then
      (exec rt op).bind fun t => (execAll t.2 ops).map fun u => (t.1 :: u.1, u.2)
    else execAll rt ops

/-- `find_own_property`: flags and value. -/
def getOwnProperty (rt : Runtime V) (o : Nat) (atom : Atom) : Option (Fin 64 × V) :=
  (rt.objects o).bind fun p => (rt.shapes p.shape).bind fun sh =>
    (findProperty sh atom).bind fun t => (sh.prop[t.1]?).bind fun pr =>
      (p.prop[t.1]?).map fun v => (pr.flags, v)

/-- The loop over the properties: names in the order in which they came. -/
def ownKeys (rt : Runtime V) (o : Nat) : Option (List Atom) :=
  (rt.objects o).bind fun p => (rt.shapes p.shape).map fun sh =>
    (sh.prop.map ShapeProperty.atom).filter fun atom => atom ≠ atomNull

def getPrototype (rt : Runtime V) (o : Nat) : Option (Option Nat) :=
  (rt.objects o).bind fun p => (rt.shapes p.shape).map Shape.proto

end Runtime

end Shapes
