import Mathlib.Data.List.Sort
import Goqjs.Bindings
import Goqjs.KeyedLists

/-!
# Properties of the engine's objects

An object has its own properties and a chain of prototypes. A property is named by an
atom, which stands for a text: `JS_GetPropertyStr` and `JS_SetPropertyStr` make one of
the C string they get, with a look at the table of atoms first that compares bytes.
An accessor runs code of the script's, so what it does is a parameter.
-/

namespace Objects

open Quickjs Qjs KeyedLists

def isDigit (b : UInt8) : Bool := 0x30 ≤ b.toNat && b.toNat ≤ 0x39

/-- The digits of `is_num_string` behind the first, with what was read so far. -/
def digitsValue : Nat → Units → Option Nat
  | n, [] => some n
  | n, c :: rest =>
    if 0x30 ≤ c.toNat ∧ c.toNat ≤ 0x39 then
      let n64 := n * 10 + (c.toNat - 0x30)
      if n64 >>> 32 ≠ 0 then none else digitsValue n64 rest
    else none

/-- The number of at most 32 bits that a text spells. -/
def isNumString : Units → Option Nat
  | [] => none
  | c :: rest =>
    if rest.length + 1 > 10 then none
    else if 0x30 ≤ c.toNat ∧ c.toNat ≤ 0x39 then
      if c.toNat = 0x30 then (if rest = [] then some 0 else none)
      else digitsValue (c.toNat - 0x30) rest
    else none

/-- `JS_ATOM_MAX_INT`. -/
def atomMaxInt : Nat := 2 ^ 31 - 1

/-- The text of an atom that is an integer with a tag and not in the table. -/
def isTaggedInt (a : Units) : Bool :=
  match isNumString a with
  | some n => n ≤ atomMaxInt
  | none => false

/-- The string atoms that are in use; an atom is known by its text. -/
structure Atoms where
  strs : List Str
  distinct : (strs.map Str.units).Nodup

namespace Atoms

variable (T : Atoms)

def Has (a : Units) : Prop := isTaggedInt a = true ∨ a ∈ T.strs.map Str.units

/-- `__JS_NewAtom` of a string: the atom with this text, or a new one. -/
def intern (s : Str) : Atoms :=
  if h : s.units ∈ T.strs.map Str.units then T
  else ⟨s :: T.strs, List.nodup_cons.mpr ⟨h, T.distinct⟩⟩

/-- `JS_NewAtomStr`. -/
def newAtomStr (s : Str) : Units × Atoms :=
  (s.units, if isTaggedInt s.units then T else T.intern s)

/-- `__JS_FindAtom`: an 8-bit atom whose characters are the given bytes. -/
def findAtom (str : Bytes) : Option Units :=
  if Str.narrow str ∈ T.strs then some (latin1 str) else none

/-- `JS_NewAtomLen`. -/
def newAtomLen (str : Bytes) : Units × Atoms :=
  if str.head?.all (fun c => !isDigit c) then
    match T.findAtom str with
    | some a => (a, T)
    | none => T.newAtomStr (newStringLen str)
  else T.newAtomStr (newStringLen str)

/-- `JS_NewAtom` of a C string that holds a Go string: it ends at the first NUL. -/
def newAtom (name : GoString) : Units × Atoms := T.newAtomLen (Engine.cString name)

theorem mem_intern {T : Atoms} {s t : Str} (h : t ∈ (T.intern s).strs) : t ∈ T.strs ∨ t = s := by
  rw [intern] at h
  split_ifs at h with old
  · exact .inl h
  · exact (List.mem_cons.mp h).symm

theorem mem_intern_of_mem {T : Atoms} {t : Str} (h : t ∈ T.strs) (s : Str) :
    t ∈ (T.intern s).strs := by
  rw [intern]
  split_ifs
  · exact h
  · exact List.mem_cons_of_mem _ h

theorem Has.intern {T : Atoms} {a : Units} (h : T.Has a) (s : Str) : (T.intern s).Has a := by
  refine h.imp id fun old => ?_
  obtain ⟨t, mem, same⟩ := List.mem_map.mp old
  exact List.mem_map.mpr ⟨t, mem_intern_of_mem mem s, same⟩

theorem has_intern (s : Str) : (T.intern s).Has s.units := by
  rw [intern]
  split_ifs with old
  · exact .inr old
  · exact .inr List.mem_cons_self

theorem has_newAtomStr (s : Str) : (T.newAtomStr s).2.Has s.units := by
  rw [newAtomStr]
  split_ifs with tagged
  · exact .inl tagged
  · exact T.has_intern s

/-- The bytes are taken for the characters of an 8-bit atom. -/
def Taken (b : Bytes) : Prop := b.head?.all (fun c => !isDigit c) = true ∧ Str.narrow b ∈ T.strs

theorem newAtomLen_of_taken {T : Atoms} {b : Bytes} (h : T.Taken b) :
    T.newAtomLen b = (latin1 b, T) := by
  rw [newAtomLen, if_pos h.1, findAtom, if_pos h.2]

theorem newAtomLen_of_not_taken {T : Atoms} {b : Bytes} (h : ¬ T.Taken b) :
    T.newAtomLen b = T.newAtomStr (newStringLen b) := by
  rw [newAtomLen, findAtom]
  split_ifs with first found
  · exact absurd ⟨first, found⟩ h
  · rfl
  · rfl

theorem has_newAtomLen (b : Bytes) : (T.newAtomLen b).2.Has (T.newAtomLen b).1 := by
  by_cases h : T.Taken b
  · rw [newAtomLen_of_taken h]
    exact .inr (List.mem_map.mpr ⟨_, h.2, rfl⟩)
  · rw [newAtomLen_of_not_taken h]
    exact T.has_newAtomStr _

/-- The table afterwards. -/
theorem newAtomLen_table (T : Atoms) (b : Bytes) :
    (T.newAtomLen b).2 = T ∨ (T.newAtomLen b).2 = T.intern (newStringLen b) := by
  by_cases taken : T.Taken b
  · rw [newAtomLen_of_taken taken]
    exact .inl rfl
  · rw [newAtomLen_of_not_taken taken, newAtomStr]
    split_ifs
    · exact .inl rfl
    · exact .inr rfl

theorem Has.newAtomLen {T : Atoms} {a : Units} (h : T.Has a) (b : Bytes) :
    (T.newAtomLen b).2.Has a := by
  rcases T.newAtomLen_table b with same | same
  · rw [same]
    exact h
  · rw [same]
    exact h.intern _

/-- `JS_AtomToString`. -/
def atomToString (a : Units) : Str :=
  match T.strs.find? (fun s => s.units == a) with
  | some s => s
  | none => .narrow (a.map fun u => .ofNat u.toNat)

end Atoms

/-- A property is named by a string, or by a symbol or private name. -/
inductive Key where
  | string (a : Units)
  | symbol (id : Nat)
  deriving DecidableEq

inductive Slot (O A : Type) where
  | data (value : Value O) (writable : Bool)
  | accessor (a : A)

structure Property (O A : Type) where
  slot : Slot O A
  enumerable : Bool

/-- An ordinary object; `ref` is the value that JavaScript has for it. -/
structure Object (O A : Type) where
  ref : O
  props : List (Key × Property O A)
  distinct : (props.map Prod.fst).Nodup
  extensible : Bool

variable {O A : Type}

namespace Object

def empty (ref : O) : Object O A := ⟨ref, [], List.nodup_nil, true⟩

/-- `find_own_property`. -/
def find (p : Object O A) (k : Key) : Option (Property O A) := KeyedLists.find p.props k

def put (p : Object O A) (k : Key) (prop : Property O A) : Object O A :=
  { p with props := set p.props k prop, distinct := nodup_set p.distinct k prop }

end Object

/-- `find_own_property` up the chain. -/
def findProperty : List (Object O A) → Key → Option (Property O A)
  | [], _ => none
  | p :: protos, k =>
    match p.find k with
    | some prop => some prop
    | none => findProperty protos k

/-- An object with its prototypes, the nearest first, and the atoms. The atoms of its names are
in use. -/
structure State (O A : Type) where
  atoms : Atoms
  object : Object O A
  protos : List (Object O A)
  named : ∀ a, Key.string a ∈ object.props.map Prod.fst → atoms.Has a

/-- What the getters and setters do. -/
structure Accessors (O A : Type) where
  get : A → State O A → Value O × State O A
  set : A → Value O → State O A → State O A

section Access

variable (acc : Accessors O A)

def Slot.read : Slot O A → State O A → Value O × State O A
  | .data value _, s => (value, s)
  | .accessor a, s => acc.get a s

/-- `JS_GetProperty`. -/
def getProperty (s : State O A) (k : Key) : Value O × State O A :=
  match findProperty (s.object :: s.protos) k with
  | some prop => prop.slot.read acc s
  | none => (.undefined, s)

/-- The `TypeError` of an assignment. -/
inductive Refusal where
  | readOnly
  | notExtensible
  deriving DecidableEq

/-- Write a property of the object, the atom of its name being in use. -/
def State.put (s : State O A) (k : Key) (known : ∀ a, k = .string a → s.atoms.Has a)
    (prop : Property O A) : State O A :=
  { s with
    object := s.object.put k prop
    named := by
      intro a mem
      rcases mem_keys_set.mp mem with rfl | old
      · exact known a rfl
      · exact s.named a old }

/-- `JS_SetPropertyInternal` of the object itself. -/
def setProperty (s : State O A) (k : Key) (known : ∀ a, k = .string a → s.atoms.Has a)
    (v : Value O) : Except Refusal (State O A) :=
  match s.object.find k with
  | some ⟨.data _ true, enumerable⟩ => .ok (s.put k known ⟨.data v true, enumerable⟩)
  | some ⟨.accessor a, _⟩ => .ok (acc.set a v s)
  | some ⟨.data _ false, _⟩ => .error .readOnly
  | none =>
    match findProperty s.protos k with
    | some ⟨.accessor a, _⟩ => .ok (acc.set a v s)
    | some ⟨.data _ false, _⟩ => .error .readOnly
    | some ⟨.data _ true, _⟩ | none =>
      if s.object.extensible then .ok (s.put k known ⟨.data v true, true⟩)
      else .error .notExtensible

/-- `Value.Get`. -/
def get (s : State O A) (name : GoString) : Value O × State O A :=
  getProperty acc s (.string (s.atoms.newAtom name).1)

/-- The state in which the atom of a name is in use. -/
def State.using (s : State O A) (name : GoString) : State O A :=
  { s with
    atoms := (s.atoms.newAtom name).2
    named := fun a mem => (s.named a mem).newAtomLen _ }

theorem State.using_known (s : State O A) (name : GoString) (a : Units)
    (h : Key.string (s.atoms.newAtom name).1 = .string a) : (s.using name).atoms.Has a := by
  cases h
  exact s.atoms.has_newAtomLen _

/-- `Value.Set`: the status is dropped, and an atom that names nothing is given back. -/
def set (s : State O A) (name : GoString) (v : Value O) : State O A :=
  match setProperty acc (s.using name) (.string (s.atoms.newAtom name).1) (s.using_known name) v with
  | .ok t => t
  | .error _ => s

/-- `JS_AtomIsArrayIndex`. -/
def arrayIndex (a : Units) : Option Nat := (isNumString a).filter (· ≠ 2 ^ 32 - 1)

/-- The names of the enumerable properties, in the order in which they were added. -/
def Object.enumerable (p : Object O A) : List Units :=
  p.props.filterMap fun e =>
    match e.1 with
    | .string a => if e.2.enumerable then some a else none
    | .symbol _ => none

/-- `JS_GetOwnPropertyNames` with the flags of `Keys`: array indices come first, sorted. -/
def Object.ownPropertyNames (p : Object O A) : List Units :=
  (p.enumerable.filter (fun a => (arrayIndex a).isSome)).insertionSort
      (fun a b => (arrayIndex a).getD 0 ≤ (arrayIndex b).getD 0) ++
    p.enumerable.filter (fun a => (arrayIndex a).isNone)

/-- The text of a name as `Keys` hands it out. -/
def State.key (s : State O A) (a : Units) : GoString := toCStringLen (s.atoms.atomToString a)

/-- `Value.Keys`. -/
def keys (s : State O A) : List GoString := s.object.ownPropertyNames.map s.key

end Access

theorem Object.find_put (p : Object O A) (k : Key) (prop : Property O A) :
    (p.put k prop).find k = some prop :=
  find_set_self p.props k prop

theorem Object.find_put_ne (p : Object O A) {k k' : Key} (prop : Property O A) (ne : k' ≠ k) :
    (p.put k prop).find k' = p.find k' :=
  find_set_ne p.props prop ne

theorem findProperty_of_own {p : Object O A} {k : Key} {prop : Property O A}
    (h : p.find k = some prop) (protos : List (Object O A)) :
    findProperty (p :: protos) k = some prop := by
  rw [findProperty, h]

theorem findProperty_of_inherited {p : Object O A} {k : Key} (h : p.find k = none)
    (protos : List (Object O A)) : findProperty (p :: protos) k = findProperty protos k := by
  rw [findProperty, h]

theorem Object.mem_enumerable {p : Object O A} {a : Units} :
    a ∈ p.enumerable ↔ ∃ prop, p.find (.string a) = some prop ∧ prop.enumerable = true := by
  simp only [Object.enumerable, List.mem_filterMap, Object.find]
  constructor
  · rintro ⟨⟨k, prop⟩, mem, shown⟩
    cases k with
    | symbol id => cases shown
    | string b =>
      simp only [Option.ite_none_right_eq_some] at shown
      obtain ⟨enumerable, same⟩ := shown
      cases same
      exact ⟨prop, find_of_mem p.distinct mem, enumerable⟩
  · rintro ⟨prop, found, enumerable⟩
    exact ⟨(.string a, prop), mem_of_find found, if_pos enumerable⟩

theorem Object.mem_ownPropertyNames {p : Object O A} {a : Units} :
    a ∈ p.ownPropertyNames ↔ ∃ prop, p.find (.string a) = some prop ∧ prop.enumerable = true := by
  rw [← Object.mem_enumerable, Object.ownPropertyNames, List.mem_append, List.mem_insertionSort,
    List.mem_filter, List.mem_filter]
  cases arrayIndex a <;> simp

theorem digitsValue_digits {n m : Nat} {u : Units} (h : digitsValue n u = some m) :
    ∀ c ∈ u, 0x30 ≤ c.toNat ∧ c.toNat ≤ 0x39 := by
  induction u generalizing n with
  | nil => simp
  | cons c u ih =>
    simp only [digitsValue] at h
    split_ifs at h with digit
    simp only [List.forall_mem_cons]
    exact ⟨digit, ih h⟩

theorem isNumString_digits {u : Units} {n : Nat} (h : isNumString u = some n) :
    ∀ c ∈ u, 0x30 ≤ c.toNat ∧ c.toNat ≤ 0x39 := by
  cases u with
  | nil => simp
  | cons c u =>
    simp only [isNumString] at h
    split_ifs at h with long digit zero rest
    · subst rest
      simpa using digit
    · simp only [List.forall_mem_cons]
      exact ⟨digit, digitsValue_digits h⟩

theorem isTaggedInt_digits {u : Units} (h : isTaggedInt u = true) :
    ∀ c ∈ u, 0x30 ≤ c.toNat ∧ c.toNat ≤ 0x39 := by
  unfold isTaggedInt at h
  cases num : isNumString u with
  | some n => exact isNumString_digits num
  | none => simp [num] at h

theorem Atoms.units_atomToString {T : Atoms} {a : Units} (h : T.Has a) :
    (T.atomToString a).units = a := by
  unfold Atoms.atomToString
  cases found : T.strs.find? (fun s => s.units == a) with
  | some s => simpa using List.find?_some found
  | none =>
    rcases h with tagged | old
    · refine latin1_ofNat fun u mem => ?_
      have range := isTaggedInt_digits tagged u mem
      omega
    · obtain ⟨s, mem, same⟩ := List.mem_map.mp old
      have absent := List.find?_eq_none.mp found s mem
      simp [same] at absent

def Slot.writable : Slot O A → Bool
  | .data _ writable => writable
  | .accessor _ => false

/-- What a name finds is not an accessor. -/
def State.NoAccessor (s : State O A) (a : Units) : Prop :=
  ∀ prop, findProperty (s.object :: s.protos) (.string a) = some prop →
    ∃ v writable, prop.slot = .data v writable

/-- Neither the object nor a prototype refuses the assignment. -/
def State.Assignable (s : State O A) (a : Units) : Prop :=
  match s.object.find (.string a) with
  | some prop => prop.slot.writable = true
  | none => s.object.extensible = true ∧
      ∀ prop, findProperty s.protos (.string a) = some prop → prop.slot.writable = true

variable {acc : Accessors O A} {s : State O A} {a : Units} {v : Value O}

theorem getProperty_of_find {prop : Property O A} (h : s.object.find (.string a) = some prop) :
    getProperty acc s (.string a) = prop.slot.read acc s := by
  rw [getProperty, findProperty_of_own h]

/-- What an assignment leaves: a new property is enumerable, an old one stays what it was. -/
def State.assigned (s : State O A) (a : Units) (known : s.atoms.Has a) (v : Value O) : State O A :=
  s.put (.string a) (fun _ same => Key.string.inj same ▸ known)
    ⟨.data v true, ((s.object.find (.string a)).map Property.enumerable).getD true⟩

theorem setProperty_of_assignable (known : ∀ b, Key.string a = .string b → s.atoms.Has b)
    (h : s.Assignable a) :
    setProperty acc s (.string a) known v = .ok (s.assigned a (known a rfl) v) := by
  unfold State.Assignable at h
  unfold setProperty State.assigned
  cases own : s.object.find (.string a) with
  | some prop =>
    obtain ⟨slot, enumerable⟩ := prop
    cases slot with
    | accessor b => simp [own, Slot.writable] at h
    | data w writable =>
      simp only [own, Slot.writable] at h
      subst h
      rfl
  | none =>
    simp only [own] at h
    obtain ⟨extensible, inherited⟩ := h
    cases found : findProperty s.protos (.string a) with
    | none =>
      simp only [extensible, if_true]
      rfl
    | some prop =>
      have writable := inherited prop found
      obtain ⟨slot, enumerable⟩ := prop
      cases slot with
      | accessor b => cases writable
      | data w _ =>
        simp only [Slot.writable] at writable
        subst writable
        simp only [extensible, if_true]
        rfl

theorem setProperty_of_refused (known : ∀ b, Key.string a = .string b → s.atoms.Has b)
    (plain : s.NoAccessor a) (h : ¬ s.Assignable a) :
    ∃ e, setProperty acc s (.string a) known v = .error e := by
  unfold State.Assignable at h
  unfold setProperty
  cases own : s.object.find (.string a) with
  | some prop =>
    obtain ⟨w, writable, data⟩ := plain prop (findProperty_of_own own _)
    obtain ⟨slot, enumerable⟩ := prop
    cases data
    simp only [own, Slot.writable] at h
    cases writable with
    | true => exact absurd rfl h
    | false => exact ⟨_, rfl⟩
  | none =>
    simp only [own] at h
    cases found : findProperty s.protos (.string a) with
    | none =>
      have closed : ¬ s.object.extensible = true := by
        intro extensible
        exact h ⟨extensible, by simp [found]⟩
      exact ⟨_, if_neg closed⟩
    | some prop =>
      obtain ⟨w, writable, data⟩ := plain prop ((findProperty_of_inherited own _).trans found)
      obtain ⟨slot, enumerable⟩ := prop
      cases data
      cases writable with
      | false => exact ⟨_, rfl⟩
      | true =>
        have closed : ¬ s.object.extensible = true := by
          intro extensible
          refine h ⟨extensible, fun prop' found' => ?_⟩
          cases found.symm.trans found'
          rfl
        exact ⟨_, if_neg closed⟩

theorem set_of_assignable (name : GoString) (h : s.Assignable (s.atoms.newAtom name).1) :
    set acc s name v =
      (s.using name).assigned (s.atoms.newAtom name).1 (s.using_known name _ rfl) v := by
  rw [set, setProperty_of_assignable (s := s.using name) (s.using_known name) h]

theorem set_of_refused (name : GoString) (plain : s.NoAccessor (s.atoms.newAtom name).1)
    (h : ¬ s.Assignable (s.atoms.newAtom name).1) : set acc s name v = s := by
  have refused : ∃ e, setProperty acc (s.using name) (.string (s.atoms.newAtom name).1)
      (s.using_known name) v = .error e :=
    setProperty_of_refused _ plain h
  obtain ⟨e, refused⟩ := refused
  rw [set, refused]

/-- What a setter leaves that the object inherits. -/
theorem set_of_inherited {name : GoString} {b : A} {enumerable : Bool}
    (own : s.object.find (.string (s.atoms.newAtom name).1) = none)
    (inherited : findProperty s.protos (.string (s.atoms.newAtom name).1) =
      some ⟨.accessor b, enumerable⟩) :
    set acc s name v = acc.set b v (s.using name) := by
  have assigned : setProperty acc (s.using name) (.string (s.atoms.newAtom name).1)
      (s.using_known name) v = .ok (acc.set b v (s.using name)) := by
    have own' : (s.using name).object.find (.string (s.atoms.newAtom name).1) = none := own
    have inherited' : findProperty (s.using name).protos (.string (s.atoms.newAtom name).1) =
        some ⟨.accessor b, enumerable⟩ := inherited
    simp only [setProperty, own', inherited']
  rw [set, assigned]

theorem find_assigned (known : s.atoms.Has a) :
    (s.assigned a known v).object.find (.string a) =
      some ⟨.data v true, ((s.object.find (.string a)).map Property.enumerable).getD true⟩ :=
  s.object.find_put _ _

theorem find_assigned_ne (known : s.atoms.Has a) {k : Key} (ne : k ≠ .string a) :
    (s.assigned a known v).object.find k = s.object.find k :=
  s.object.find_put_ne _ ne

theorem getProperty_assigned (known : s.atoms.Has a) :
    (getProperty acc (s.assigned a known v) (.string a)).1 = v := by
  rw [getProperty_of_find (find_assigned known)]
  rfl

/-- `Set` that goes through is seen under its atom only. -/
theorem find_set {name : GoString} (atom : (s.atoms.newAtom name).1 = a) (h : s.Assignable a)
    (v : Value O) (k : Key) :
    (set acc s name v).object.find k =
      if k = .string a then
        some ⟨.data v true, ((s.object.find (.string a)).map Property.enumerable).getD true⟩
      else s.object.find k := by
  subst atom
  rw [set_of_assignable name h]
  split_ifs with same
  · subst same
    exact find_assigned (s := s.using name) _
  · exact find_assigned_ne (s := s.using name) _ same

/-- Where no code runs, what is read depends on the property that is found alone. -/
theorem getProperty_congr {t : State O A} {b : Units} (plain : s.NoAccessor b)
    (same : findProperty (t.object :: t.protos) (.string b) =
      findProperty (s.object :: s.protos) (.string b)) :
    (getProperty acc t (.string b)).1 = (getProperty acc s (.string b)).1 := by
  simp only [getProperty, same]
  cases found : findProperty (s.object :: s.protos) (.string b) with
  | none => rfl
  | some prop =>
    obtain ⟨w, writable, data⟩ := plain prop found
    simp only [data, Slot.read]

theorem findProperty_assigned_ne (known : s.atoms.Has a) {b : Units} (ne : b ≠ a) :
    findProperty ((s.assigned a known v).object :: (s.assigned a known v).protos) (.string b) =
      findProperty (s.object :: s.protos) (.string b) := by
  rw [findProperty, findProperty, find_assigned_ne known (by simpa using ne)]
  rfl

end Objects