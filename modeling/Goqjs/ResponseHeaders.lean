import Goqjs.PolyfillFunctions
import Goqjs.PropertyNames

/-!
# The headers of a response

`buildResponseObject` stores the headers twice: as properties of the headers object and
in a map that `get` and `has` look into. The names come from the server and share the
object with the two methods and with what `Object.prototype` has.
-/

namespace Polyfill

open Quickjs Qjs Objects

/-- `http.Header` as net/http fills it, in the order in which the loop ranges over it: names are
valid and have the canonical spelling. -/
structure ResponseHeader where
  entries : List (GoString × List GoString)
  distinct : (entries.map Prod.fst).Nodup
  valid : ∀ e ∈ entries, ∀ c ∈ e.1, validHeaderFieldByte c = true
  canonical : ∀ e ∈ entries, canonicalMIMEHeaderKey e.1 = e.1

/-- `strings.ToLower`; text that is not ASCII is mapped rune by rune. -/
def toLower (mapRunes : GoString → GoString) (s : GoString) : GoString :=
  if s.all isAscii then NetUrl.toLower s else mapRunes s

/-- `String.prototype.toLowerCase` of ASCII text. -/
def toLowerCase (u : Units) : Units :=
  u.map fun c => if 0x41 ≤ c.toNat ∧ c.toNat ≤ 0x5A then c + 0x20 else c

/-- A method of the headers object, with the map that it has captured. -/
inductive HeadersMethod where
  | get (headerMap : GoMap)
  | has (headerMap : GoMap)

/-- The function objects of the methods, and which Go function is behind an object. -/
structure Closures (O : Type) where
  ref : HeadersMethod → O
  method : O → Option HeadersMethod
  method_ref : ∀ m, method (ref m) = some m

/-- `proto` is `Object.prototype.__proto__`. -/
inductive Accessor (A : Type) where
  | proto
  | script (a : A)

abbrev HeadersState (O A : Type) := State O (Accessor A)

/-- What the code of scripts does, and `JS_SetPrototypeInternal`. -/
structure ScriptCode (O A : Type) where
  get : A → HeadersState O A → Value O × HeadersState O A
  set : A → Value O → HeadersState O A → HeadersState O A
  setPrototype : Value O → HeadersState O A → HeadersState O A

variable {O A : Type}

/-- `js_object_get___proto__`. -/
def getProto (s : HeadersState O A) : Value O :=
  match s.protos with
  | [] => .null
  | p :: _ => .object p.ref

/-- The accessor `__proto__` ignores a value that is no object and not null. -/
def accessors (code : ScriptCode O A) : Accessors O (Accessor A) where
  get
    | .proto, s => (getProto s, s)
    | .script a, s => code.get a s
  set
    | .proto, v, s => if !v.isObject && !v.isNull then s else code.setPrototype v s
    | .script a, v, s => code.set a v s

/-- `ctx.NewObject()`. -/
def newObject (T : Atoms) (ref : O) (protos : List (Object O (Accessor A))) : HeadersState O A :=
  ⟨T, .empty ref, protos, nofun⟩

section Build

variable (code : ScriptCode O A) (fns : Closures O) (mapRunes : GoString → GoString)

/-- One turn of the loop over the headers. -/
def addHeader (built : HeadersState O A × GoMap) (e : GoString × List GoString) :
    HeadersState O A × GoMap :=
  let lowerKey := toLower mapRunes e.1
  let joinedVal := joinWith (ascii ", ") e.2
  (Objects.set (accessors code) built.1 lowerKey (.newString joinedVal),
    built.2.set lowerKey joinedVal)

/-- `Value.SetFunction`. -/
def setFunction (s : HeadersState O A) (name : GoString) (fn : HeadersMethod) : HeadersState O A :=
  Objects.set (accessors code) s name (.object (fns.ref fn))

/-- The part of `buildResponseObject` that makes the headers object. -/
def headersObject (respHeaders : ResponseHeader) (new : HeadersState O A) : HeadersState O A :=
  let (headersObj, headerMap) := respHeaders.entries.foldl (addHeader code mapRunes) (new, [])
  let headersObj := setFunction code fns headersObj (ascii "get") (.get headerMap)
  setFunction code fns headersObj (ascii "has") (.has headerMap)

end Build

/-- `headers.name(args)`; `none` is a throw. -/
def callMethod {E : Engine} (code : ScriptCode E.Obj A) (fns : Closures E.Obj)
    (mapRunes : GoString → GoString) (rt : Rt E) (s : HeadersState E.Obj A) (name : String)
    (args : List (Value E.Obj)) : Option (Value E.Obj) :=
  match (getProperty (accessors code) s (.string (latin1 (ascii name)))).1 with
  | .object o =>
    match fns.method o with
    | some (.get m) =>
      (run E (headersGet (toLower mapRunes) m args : Call E.Obj (Effect E.Obj) _) rt).result
    | some (.has m) =>
      (run E (headersHas (toLower mapRunes) m args : Call E.Obj (Effect E.Obj) _) rt).result
    | none => none
  | _ => none

def lowerByte (c : UInt8) : UInt8 := if 0x41 ≤ c && c ≤ 0x5A then c + 0x20 else c

theorem upper_iff (c : UInt8) :
    (decide (0x41 ≤ c) && decide (c ≤ 0x5A)) = true ↔ 0x41 ≤ c.toNat ∧ c.toNat ≤ 0x5A := by
  rw [Bool.and_eq_true, decide_eq_true_eq, decide_eq_true_eq]
  rfl

theorem lowerByte_toNat (c : UInt8) : (lowerByte c).toNat =
    if 0x41 ≤ c.toNat ∧ c.toNat ≤ 0x5A then c.toNat + 0x20 else c.toNat := by
  simp only [lowerByte, upper_iff]
  split_ifs with upper
  · rw [UInt8.toNat_add]
    change (c.toNat + 32) % 256 = c.toNat + 32
    omega
  · rfl

theorem toLowerCase_latin1 (b : Bytes) : toLowerCase (latin1 b) = latin1 (b.map lowerByte) := by
  rw [toLowerCase, latin1, latin1, List.map_map, List.map_map]
  refine List.map_congr_left fun c _ => ?_
  have unit := toNat_ofNat16_of_lt (c.toNat_lt.trans (by decide))
  have small := (lowerByte c).toNat_lt
  have lower := toNat_ofNat16_of_lt (small.trans (by decide))
  apply UInt16.toNat_inj.mp
  rw [Function.comp_apply, Function.comp_apply, lower, lowerByte_toNat, unit]
  split_ifs with upper
  · rw [UInt16.toNat_add, unit]
    change (c.toNat + 32) % 65536 = c.toNat + 32
    omega
  · exact unit

theorem ascii_of_valid {c : UInt8} (h : validHeaderFieldByte c = true) : c.toNat < 0x80 := by
  simp only [validHeaderFieldByte, Bool.or_eq_true, Bool.and_eq_true, decide_eq_true_eq,
    UInt8.le_iff_toNat_le, List.contains_iff_mem] at h
  rcases h with ((⟨_, high⟩ | ⟨_, high⟩) | ⟨_, high⟩) | mem
  · exact high.trans_lt (by decide)
  · exact high.trans_lt (by decide)
  · exact high.trans_lt (by decide)
  · revert c mem
    decide

theorem canonicalCase_lower (upper : Bool) (name : GoString) :
    canonicalCase upper (name.map lowerByte) = canonicalCase upper name := by
  induction name generalizing upper with
  | nil => rfl
  | cons c name ih =>
    by_cases letter : 0x41 ≤ c.toNat ∧ c.toNat ≤ 0x5A
    · have low : lowerByte c = c + 0x20 := if_pos ((upper_iff c).mpr letter)
      have value : (c + 0x20).toNat = c.toNat + 0x20 := by
        rw [← low, lowerByte_toNat, if_pos letter]
      have back : c + 0x20 - 0x20 = c := UInt8.add_sub_cancel c 0x20
      have above : 0x61 ≤ c + 0x20 ∧ c + 0x20 ≤ 0x7A := by
        simp only [UInt8.le_iff_toNat_le, value]
        change 0x61 ≤ c.toNat + 0x20 ∧ c.toNat + 0x20 ≤ 0x7A
        omega
      have notLow : ¬ 0x61 ≤ c := by
        rw [UInt8.le_iff_toNat_le]
        change ¬ 0x61 ≤ c.toNat
        omega
      have notHigh : ¬ c + 0x20 ≤ 0x5A := by
        rw [UInt8.le_iff_toNat_le, value]
        change ¬ c.toNat + 0x20 ≤ 0x5A
        omega
      have letter' : 0x41 ≤ c ∧ c ≤ 0x5A := letter
      rw [List.map_cons, low, canonicalCase, canonicalCase]
      cases upper <;> simp [above, notLow, notHigh, letter', back, ih]
    · have same : lowerByte c = c := if_neg fun upper => letter ((upper_iff c).mp upper)
      rw [List.map_cons, same, canonicalCase, canonicalCase]
      simp only [ih]

theorem notMem_of_valid {name : GoString} (valid : ∀ c ∈ name, validHeaderFieldByte c = true) :
    (0 : UInt8) ∉ name := by
  intro nul
  exact absurd (valid 0 nul) (by decide)

theorem toLower_ascii (mapRunes : GoString → GoString) {name : GoString}
    (low : ∀ c ∈ name, c.toNat < 0x80) : toLower mapRunes name = name.map lowerByte := by
  refine if_pos (List.all_eq_true.mpr fun c mem => ?_)
  simpa [isAscii] using low c mem

theorem lowerByte_ascii {c : UInt8} (h : c.toNat < 0x80) : (lowerByte c).toNat < 0x80 := by
  rw [lowerByte_toNat]
  split_ifs <;> omega

theorem lowerByte_ne_zero {c : UInt8} (h : c ≠ 0) : lowerByte c ≠ 0 := by
  intro zero
  have value := congrArg UInt8.toNat zero
  rw [lowerByte_toNat] at value
  have nonzero : c.toNat ≠ 0 := fun same => h (UInt8.toNat_inj.mp same)
  change _ = 0 at value
  split_ifs at value
  omega

/-- What the loop stores of a header. -/
def lowered (e : GoString × List GoString) : GoString × GoString :=
  (e.1.map lowerByte, joinWith (ascii ", ") e.2)

theorem ascii_map_lowerByte {name : GoString} (low : ∀ c ∈ name, c.toNat < 0x80) :
    ∀ c ∈ name.map lowerByte, c.toNat < 0x80 := by
  intro c mem
  obtain ⟨b, old, rfl⟩ := List.mem_map.mp mem
  exact lowerByte_ascii (low b old)

theorem notMem_map_lowerByte {name : GoString} (none : (0 : UInt8) ∉ name) :
    (0 : UInt8) ∉ name.map lowerByte := by
  intro mem
  obtain ⟨b, old, zero⟩ := List.mem_map.mp mem
  have nonzero : b ≠ 0 := by
    rintro rfl
    exact none old
  exact lowerByte_ne_zero nonzero zero

namespace ResponseHeader

variable (h : ResponseHeader)

/-- The map of the names in lower case. -/
def headerMap : GoMap := h.entries.map lowered

variable {h}

theorem ascii_of_mem {e : GoString × List GoString} (mem : e ∈ h.entries) :
    ∀ c ∈ e.1, c.toNat < 0x80 :=
  fun c hc => ascii_of_valid (h.valid e mem c hc)

/-- Two names differ in more than their case. -/
theorem lower_injective {e e' : GoString × List GoString} (mem : e ∈ h.entries)
    (mem' : e' ∈ h.entries) (same : e.1.map lowerByte = e'.1.map lowerByte) : e = e' := by
  have canonical {e : GoString × List GoString} (mem : e ∈ h.entries) :
      canonicalCase true (e.1.map lowerByte) = e.1 := by
    have name := h.canonical e mem
    rw [canonicalMIMEHeaderKey, if_pos (List.all_eq_true.mpr (h.valid e mem))] at name
    rw [canonicalCase_lower, name]
  have names : e.1 = e'.1 := by
    rw [← canonical mem, same, canonical mem']
  exact List.inj_on_of_nodup_map h.distinct mem mem' names

theorem nodup_headerMap (h : ResponseHeader) : (h.headerMap.map Prod.fst).Nodup := by
  rw [headerMap, List.map_map]
  exact List.Nodup.map_on (fun e mem e' mem' same => lower_injective mem mem' same)
    (List.Nodup.of_map _ h.distinct)

end ResponseHeader

/-- The prototypes let a property of this name be made. -/
def assigns (protos : List (Object O (Accessor A))) (k : GoString) : Bool :=
  (findProperty protos (.string (latin1 k))).all fun prop => prop.slot.writable

/-- No accessor of a script's has this name. -/
def Scriptless (protos : List (Object O (Accessor A))) (k : GoString) : Prop :=
  ∀ a enumerable,
    findProperty protos (.string (latin1 k)) ≠ some ⟨.accessor (.script a), enumerable⟩

/-- The object has these data properties and no others. -/
structure OwnProperties (protos : List (Object O (Accessor A))) (written : List (Units × Value O))
    (s : HeadersState O A) : Prop where
  protos : s.protos = protos
  extensible : s.object.extensible = true
  found : ∀ a, s.object.find (.string a) =
    (KeyedLists.find written a).map fun v => ⟨.data v true, true⟩

variable {code : ScriptCode O A} {protos : List (Object O (Accessor A))} {s : HeadersState O A}
  {written : List (Units × Value O)} {k t : GoString}

theorem ownProperties_newObject (T : Atoms) (ref : O) (protos : List (Object O (Accessor A))) :
    OwnProperties protos [] (newObject T ref protos) :=
  ⟨rfl, rfl, fun _ => rfl⟩

namespace OwnProperties

theorem find_eq_none (made : OwnProperties protos written s) {a : Units}
    (own : KeyedLists.find written a = none) : s.object.find (.string a) = none := by
  rw [made.found, own]
  rfl

theorem assignable (made : OwnProperties protos written s) (free : assigns protos k = true) :
    s.Assignable (latin1 k) := by
  unfold State.Assignable
  rw [made.found]
  cases KeyedLists.find written (latin1 k) with
  | some v => rfl
  | none =>
    refine ⟨made.extensible, fun prop inherited => ?_⟩
    rw [made.protos] at inherited
    rw [assigns, inherited] at free
    exact free

/-- `Set` writes a property of an ASCII name that the prototypes let be made. -/
theorem set (made : OwnProperties protos written s) (free : assigns protos k = true)
    (low : ∀ c ∈ k, c.toNat < 0x80) (noNul : (0 : UInt8) ∉ k) (v : Value O) :
    OwnProperties protos (KeyedLists.set written (latin1 k) v)
      (Objects.set (accessors code) s k v) := by
  have atom : (s.atoms.newAtom k).1 = latin1 k := newAtom_ascii noNul low
  have assignable := made.assignable free
  have whole : Objects.set (accessors code) s k v =
      (s.using k).assigned (s.atoms.newAtom k).1 (s.using_known k _ rfl) v :=
    set_of_assignable k (atom.symm ▸ assignable)
  refine ⟨?_, ?_, fun a => ?_⟩
  · rw [whole]
    exact made.protos
  · rw [whole]
    exact made.extensible
  · rw [find_set atom assignable]
    by_cases same : a = latin1 k
    · subst same
      rw [if_pos rfl, KeyedLists.find_set_self, made.found]
      cases KeyedLists.find written (latin1 k) <;> rfl
    · rw [if_neg (by simpa using same), KeyedLists.find_set_ne written v same, made.found]

/-- A string that the prototypes refuse, or that `__proto__` ignores, leaves the object alone. -/
theorem set_refused (made : OwnProperties protos written s) (refused : assigns protos k = false)
    (scriptless : Scriptless protos k) (low : ∀ c ∈ k, c.toNat < 0x80) (noNul : (0 : UInt8) ∉ k)
    (own : KeyedLists.find written (latin1 k) = none) (t : GoString) :
    OwnProperties protos written (Objects.set (accessors code) s k (.newString t)) := by
  have atom : (s.atoms.newAtom k).1 = latin1 k := newAtom_ascii noNul low
  have none := made.find_eq_none own
  cases inherited : findProperty protos (.string (latin1 k)) with
  | none => simp [assigns, inherited] at refused
  | some prop =>
    obtain ⟨slot, enumerable⟩ := prop
    have inherited' := inherited
    rw [← made.protos] at inherited'
    cases slot with
    | data v writable =>
      -- the engine throws, and `Set` drops the status
      have unwritable : ¬ s.Assignable (s.atoms.newAtom k).1 := by
        rw [atom]
        unfold State.Assignable
        rw [none]
        intro assignable
        rw [assigns, inherited] at refused
        exact absurd (assignable.2 _ inherited') (by simpa using refused)
      have plain : s.NoAccessor (s.atoms.newAtom k).1 := by
        intro prop found
        rw [atom, findProperty_of_inherited none, inherited'] at found
        cases found
        exact ⟨v, writable, rfl⟩
      rw [set_of_refused k plain unwritable]
      exact made
    | accessor a =>
      cases a with
      | script a => exact absurd inherited (scriptless a enumerable)
      | proto =>
        -- the setter takes objects and null only
        rw [set_of_inherited (atom.symm ▸ none) (atom.symm ▸ inherited')]
        exact ⟨made.protos, made.extensible, made.found⟩

/-- A property of its own reads as it was written. -/
theorem getProperty_of_find (made : OwnProperties protos written s) {a : Units} {v : Value O}
    (found : KeyedLists.find written a = some v) :
    (getProperty (accessors code) s (.string a)).1 = v := by
  have own := made.found a
  rw [found] at own
  rw [Objects.getProperty_of_find own]
  rfl

/-- A name without one reads what the prototypes have. -/
theorem getProperty_of_inherited (made : OwnProperties protos written s) {a : Units}
    {prop : Property O (Accessor A)} (own : KeyedLists.find written a = none)
    (inherited : findProperty protos (.string a) = some prop) :
    getProperty (accessors code) s (.string a) = prop.slot.read (accessors code) s := by
  rw [getProperty, findProperty_of_inherited (made.find_eq_none own), made.protos, inherited]

end OwnProperties

/-- The properties that the loop leaves: one for each header that can be assigned. -/
def stored (protos : List (Object O (Accessor A))) (m : GoMap) : List (Units × Value O) :=
  (m.filter fun e => assigns protos e.1).map fun e => (latin1 e.1, .newString e.2)

variable {m : GoMap}

theorem keys_stored (protos : List (Object O (Accessor A))) (m : GoMap) :
    (stored protos m).map Prod.fst =
      ((m.map Prod.fst).filter (assigns protos)).map latin1 := by
  rw [stored, List.map_map, List.filter_map, List.map_map]
  rfl

theorem mem_keys_stored : latin1 k ∈ (stored protos m).map Prod.fst ↔
    k ∈ m.map Prod.fst ∧ assigns protos k = true := by
  rw [keys_stored, List.mem_map_of_injective fun _ _ => latin1_injective, List.mem_filter]

theorem nodup_stored (distinct : (m.map Prod.fst).Nodup) :
    ((stored protos m).map Prod.fst).Nodup := by
  rw [keys_stored]
  exact (distinct.filter _).map fun _ _ => latin1_injective

theorem stored_append (m : GoMap) (e : GoString × GoString) :
    stored protos (m ++ [e]) =
      if assigns protos e.1 then stored protos m ++ [(latin1 e.1, .newString e.2)]
      else stored protos m := by
  rw [stored, List.filter_append, List.map_append]
  split_ifs with free
  · simp [stored, free]
  · simp [stored, free]

/-- One turn of the loop, for a name that has not come yet. -/
theorem OwnProperties.step (made : OwnProperties protos (stored protos m) s)
    {e : GoString × List GoString} (valid : ∀ c ∈ e.1, validHeaderFieldByte c = true)
    (scriptless : Scriptless protos (lowered e).1)
    (fresh : (lowered e).1 ∉ m.map Prod.fst) (code : ScriptCode O A)
    (mapRunes : GoString → GoString) :
    (addHeader code mapRunes (s, m) e).2 = m ++ [lowered e] ∧
      OwnProperties protos (stored protos (m ++ [lowered e]))
        (addHeader code mapRunes (s, m) e).1 := by
  have ascii : ∀ c ∈ e.1, c.toNat < 0x80 := fun c mem => ascii_of_valid (valid c mem)
  have low : ∀ c ∈ (lowered e).1, c.toNat < 0x80 := ascii_map_lowerByte ascii
  have noNul : (0 : UInt8) ∉ (lowered e).1 := notMem_map_lowerByte (notMem_of_valid valid)
  have none : latin1 (lowered e).1 ∉ (stored protos m).map Prod.fst :=
    fun mem => fresh (mem_keys_stored.mp mem).1
  rw [addHeader, toLower_ascii mapRunes ascii]
  refine ⟨GoMap.set_of_fresh fresh _, ?_⟩
  rw [stored_append]
  split_ifs with free
  · rw [← KeyedLists.set_of_notMem none]
    exact made.set free low noNul _
  · exact made.set_refused (by simpa using free) scriptless low noNul
      (KeyedLists.find_eq_none_iff.mpr none) _

theorem OwnProperties.run (made : OwnProperties protos (stored protos m) s)
    (code : ScriptCode O A) (mapRunes : GoString → GoString) {l : List (GoString × List GoString)}
    (valid : ∀ e ∈ l, ∀ c ∈ e.1, validHeaderFieldByte c = true)
    (scriptless : ∀ e ∈ l, Scriptless protos (lowered e).1)
    (distinct : ((m ++ l.map lowered).map Prod.fst).Nodup) :
    (l.foldl (addHeader code mapRunes) (s, m)).2 = m ++ l.map lowered ∧
      OwnProperties protos (stored protos (m ++ l.map lowered))
        (l.foldl (addHeader code mapRunes) (s, m)).1 := by
  induction l generalizing s m with
  | nil => simpa using made
  | cons e l ih =>
    have fresh : (lowered e).1 ∉ m.map Prod.fst := by
      intro mem
      rw [List.map_append] at distinct
      exact List.disjoint_of_nodup_append distinct mem List.mem_cons_self
    obtain ⟨next, made'⟩ := made.step (valid e List.mem_cons_self)
      (scriptless e List.mem_cons_self) fresh code mapRunes
    have split : m ++ (e :: l).map lowered = m ++ [lowered e] ++ l.map lowered := by simp
    rw [List.foldl_cons, split, ← Prod.eta (addHeader code mapRunes (s, m) e), next]
    rw [split] at distinct
    exact ih made' (fun e' mem => valid e' (List.mem_cons_of_mem _ mem))
      (fun e' mem => scriptless e' (List.mem_cons_of_mem _ mem)) distinct

end Polyfill
