import Goqjs.ResponseHeaders

/-!
# The two ways to read a header

`headers.get(n)` and `headers[n.toLowerCase()]` agree on every header whose name the
object can hold: it is not one of the methods, and the prototypes do not keep it.
-/

namespace Polyfill

open Quickjs Qjs Objects

variable {A : Type}

section Properties

variable {O : Type} (fns : Closures O) (protos : List (Object O (Accessor A))) (m : GoMap)

/-- The properties of the finished object. -/
def properties : List (Units × Value O) :=
  KeyedLists.set
    (KeyedLists.set (stored protos m) (latin1 (ascii "get")) (.object (fns.ref (.get m))))
    (latin1 (ascii "has")) (.object (fns.ref (.has m)))

theorem properties_has :
    KeyedLists.find (properties fns protos m) (latin1 (ascii "has")) =
      some (.object (fns.ref (.has m))) :=
  KeyedLists.find_set_self _ _ _

theorem properties_get :
    KeyedLists.find (properties fns protos m) (latin1 (ascii "get")) =
      some (.object (fns.ref (.get m))) := by
  rw [properties, KeyedLists.find_set_ne _ _ (by decide)]
  exact KeyedLists.find_set_self _ _ _

theorem properties_ne {a : Units} (get : a ≠ latin1 (ascii "get"))
    (has : a ≠ latin1 (ascii "has")) :
    KeyedLists.find (properties fns protos m) a = KeyedLists.find (stored protos m) a := by
  rw [properties, KeyedLists.find_set_ne _ _ has, KeyedLists.find_set_ne _ _ get]

end Properties

/-- The methods can be put on the object, and no header has the name of a script's accessor. -/
structure OrdinaryPrototypes {O : Type} (protos : List (Object O (Accessor A)))
    (h : ResponseHeader) : Prop where
  get : assigns protos (ascii "get") = true
  has : assigns protos (ascii "has") = true
  headers : ∀ e ∈ h.entries, Scriptless protos (lowered e).1

/-- The object that `buildResponseObject` makes of the headers. -/
theorem ownProperties_headersObject {O : Type} (fns : Closures O) {h : ResponseHeader}
    {protos : List (Object O (Accessor A))} (ordinary : OrdinaryPrototypes protos h)
    (code : ScriptCode O A) (mapRunes : GoString → GoString) (T : Atoms) (ref : O) :
    OwnProperties protos (properties fns protos h.headerMap)
      (headersObject code fns mapRunes h (newObject T ref protos)) := by
  have start : OwnProperties protos (stored protos []) (newObject T ref protos) :=
    ownProperties_newObject T ref protos
  obtain ⟨map, made⟩ := start.run code mapRunes h.valid ordinary.headers h.nodup_headerMap
  rw [headersObject]
  simp only [map]
  refine OwnProperties.set (OwnProperties.set made ordinary.get ?_ ?_ _) ordinary.has ?_ ?_ _
  all_goals decide

section Agreement

variable {E : Engine} (code : ScriptCode E.Obj A) (fns : Closures E.Obj)
  (mapRunes : GoString → GoString) (rt : Rt E)

def Ascii (n : Str) : Prop := ∀ u ∈ n.units, u.toNat < 0x80

/-- Header names read alike through the methods and as properties of the object. -/
structure ReadsAlike (h : ResponseHeader) (s : HeadersState E.Obj A) : Prop where
  present : ∀ e ∈ h.entries, ∀ n : Str, Ascii n → toLowerCase n.units = toLowerCase (latin1 e.1) →
    callMethod code fns mapRunes rt s "has" [.string n] = some (.bool true) ∧
    callMethod code fns mapRunes rt s "get" [.string n] =
      some (.newString (joinWith (ascii ", ") e.2)) ∧
    (getProperty (accessors code) s (.string (toLowerCase n.units))).1 =
      .newString (joinWith (ascii ", ") e.2)
  absent : ∀ n : Str, Ascii n →
    (∀ e ∈ h.entries, toLowerCase n.units ≠ toLowerCase (latin1 e.1)) →
    callMethod code fns mapRunes rt s "has" [.string n] = some (.bool false) ∧
    callMethod code fns mapRunes rt s "get" [.string n] = some .null ∧
    (toLowerCase n.units ≠ latin1 (ascii "get") → toLowerCase n.units ≠ latin1 (ascii "has") →
      s.object.find (.string (toLowerCase n.units)) = none)

/-- The object can hold the header: its name is not one of the methods, and the prototypes have under
it nothing that stays: neither `__proto__` nor another value that is read-only. -/
structure Fits {O : Type} (protos : List (Object O (Accessor A))) (e : GoString × List GoString) :
    Prop where
  get : (lowered e).1 ≠ ascii "get"
  has : (lowered e).1 ≠ ascii "has"
  inherited : ∀ slot enumerable,
    findProperty protos (.string (latin1 (lowered e).1)) = some ⟨slot, enumerable⟩ →
      slot.writable = true ∨ ∃ writable, slot = .data (.newString (lowered e).2) writable

variable {code fns mapRunes rt} {h : ResponseHeader} {protos : List (Object E.Obj (Accessor A))}
  {s : HeadersState E.Obj A} {m : GoMap}

theorem callMethod_get (made : OwnProperties protos (properties fns protos m) s) (n : Str) :
    callMethod code fns mapRunes rt s "get" [.string n] =
      some (((KeyedLists.find m (toLower mapRunes (toCStringLen n))).map .newString).getD .null) := by
  simp only [callMethod, made.getProperty_of_find (properties_get fns protos m), fns.method_ref,
    headersGet, Call.string_bind, run_string, KeyedLists.find, Option.map_map]
  cases m.find? fun e => e.1 == toLower mapRunes (toCStringLen n) <;> rfl

theorem callMethod_has (made : OwnProperties protos (properties fns protos m) s) (n : Str) :
    callMethod code fns mapRunes rt s "has" [.string n] =
      some (.bool (KeyedLists.find m (toLower mapRunes (toCStringLen n))).isSome) := by
  simp only [callMethod, made.getProperty_of_find (properties_has fns protos m), fns.method_ref,
    headersHas, Call.string_bind, run_string, KeyedLists.find, Option.isSome_map, List.isSome_find?]
  rfl

theorem find_headerMap {e : GoString × List GoString} (mem : e ∈ h.entries) :
    KeyedLists.find h.headerMap (lowered e).1 = some (lowered e).2 :=
  KeyedLists.find_of_mem h.nodup_headerMap (List.mem_map.mpr ⟨e, mem, rfl⟩)

theorem Ascii.spelled {n : Str} (low : Ascii n) :
    ∃ name, n.units = latin1 name ∧ ∀ c ∈ name, c.toNat < 0x80 := by
  have narrow : ∀ u ∈ n.units, u.toNat < 256 := fun u mem => (low u mem).trans (by decide)
  refine ⟨_, (latin1_ofNat narrow).symm, fun c mem => ?_⟩
  obtain ⟨u, unit, rfl⟩ := List.mem_map.mp mem
  rw [toNat_ofNat_of_lt (narrow u unit)]
  exact low u unit

theorem toLowerCase_eq_iff {n : Str} {name : GoString} (spelled : n.units = latin1 name)
    (name' : GoString) : toLowerCase n.units = toLowerCase (latin1 name') ↔
      name.map lowerByte = name'.map lowerByte := by
  rw [spelled, toLowerCase_latin1, toLowerCase_latin1]
  exact ⟨latin1_injective, congrArg latin1⟩

theorem ascii_narrow {name : GoString} (low : ∀ c ∈ name, c.toNat < 0x80) :
    Ascii (.narrow name) := by
  intro u unit
  obtain ⟨c, mem, value⟩ := mem_latin1 unit
  rw [value]
  exact low c mem

/-- A header that the object has as a property. -/
theorem getProperty_of_assigns
    (made : OwnProperties protos (properties fns protos h.headerMap) s)
    {e : GoString × List GoString} (mem : e ∈ h.entries) (get : (lowered e).1 ≠ ascii "get")
    (has : (lowered e).1 ≠ ascii "has") (free : assigns protos (lowered e).1 = true) :
    (getProperty (accessors code) s (.string (latin1 (lowered e).1))).1 =
      .newString (lowered e).2 := by
  apply made.getProperty_of_find
  rw [properties_ne fns protos _ (fun same => get (latin1_injective same))
    fun same => has (latin1_injective same)]
  refine KeyedLists.find_of_mem (nodup_stored h.nodup_headerMap) (List.mem_map.mpr ?_)
  exact ⟨lowered e, List.mem_filter.mpr ⟨List.mem_map.mpr ⟨e, mem, rfl⟩, free⟩, rfl⟩

/-- A header that the prototypes keep. -/
theorem getProperty_of_kept (made : OwnProperties protos (properties fns protos m) s)
    {k : GoString} (get : k ≠ ascii "get") (has : k ≠ ascii "has") (kept : assigns protos k = false)
    {prop : Property E.Obj (Accessor A)}
    (inherited : findProperty protos (.string (latin1 k)) = some prop) :
    getProperty (accessors code) s (.string (latin1 k)) = prop.slot.read (accessors code) s := by
  refine made.getProperty_of_inherited ?_ inherited
  rw [properties_ne fns protos _ (fun same => get (latin1_injective same))
    fun same => has (latin1_injective same), KeyedLists.find_eq_none_iff, mem_keys_stored, kept]
  exact fun mem => nomatch mem.2

theorem getProto_ne (s : HeadersState E.Obj A) (t : GoString) : getProto s ≠ .newString t := by
  unfold getProto
  cases s.protos <;> nofun

/-- As a property a header reads as it should exactly if the object can hold it. -/
theorem getProperty_header_iff (made : OwnProperties protos (properties fns protos h.headerMap) s)
    {e : GoString × List GoString} (mem : e ∈ h.entries)
    (scriptless : Scriptless protos (lowered e).1) :
    (getProperty (accessors code) s (.string (latin1 (lowered e).1))).1 =
      .newString (lowered e).2 ↔ Fits protos e := by
  constructor
  · intro read
    have get : (lowered e).1 ≠ ascii "get" := by
      intro same
      rw [same, made.getProperty_of_find (properties_get fns protos _)] at read
      cases read
    have has : (lowered e).1 ≠ ascii "has" := by
      intro same
      rw [same, made.getProperty_of_find (properties_has fns protos _)] at read
      cases read
    refine ⟨get, has, fun slot enumerable inherited => ?_⟩
    cases free : assigns protos (lowered e).1 with
    | true =>
      rw [assigns, inherited] at free
      exact .inl free
    | false =>
      rw [getProperty_of_kept made get has free inherited] at read
      cases slot with
      | data v writable => exact .inr ⟨writable, congrArg (Slot.data · writable) read⟩
      | accessor a =>
        cases a with
        | proto => exact absurd read (getProto_ne s _)
        | script a => exact absurd inherited (scriptless a enumerable)
  · rintro ⟨get, has, kept⟩
    cases free : assigns protos (lowered e).1 with
    | true => exact getProperty_of_assigns made mem get has free
    | false =>
      cases inherited : findProperty protos (.string (latin1 (lowered e).1)) with
      | none => simp [assigns, inherited] at free
      | some prop =>
        obtain ⟨slot, enumerable⟩ := prop
        rw [getProperty_of_kept made get has free inherited]
        rcases kept slot enumerable inherited with writable | ⟨writable, rfl⟩
        · simp [assigns, inherited, writable] at free
        · rfl

theorem OwnProperties.readsAlike
    (made : OwnProperties protos (properties fns protos h.headerMap) s)
    (ordinary : OrdinaryPrototypes protos h) (fits : ∀ e ∈ h.entries, Fits protos e) :
    ReadsAlike code fns mapRunes rt h s := by
  constructor
  · intro e mem n low same
    obtain ⟨name, spelled, ascii⟩ := low.spelled
    have lower : name.map lowerByte = (lowered e).1 := (toLowerCase_eq_iff spelled e.1).mp same
    have read : (getProperty (accessors code) s (.string (latin1 (lowered e).1))).1 =
        .newString (lowered e).2 :=
      (getProperty_header_iff made mem (ordinary.headers e mem)).mpr (fits e mem)
    rw [callMethod_has made, callMethod_get made, (toCStringLen_latin1_iff spelled).mpr ascii,
      toLower_ascii mapRunes ascii, lower, find_headerMap mem, same, toLowerCase_latin1]
    exact ⟨rfl, rfl, read⟩
  · intro n low other
    obtain ⟨name, spelled, ascii⟩ := low.spelled
    have none : name.map lowerByte ∉ h.headerMap.map Prod.fst := by
      rw [ResponseHeader.headerMap, List.map_map, List.mem_map]
      rintro ⟨e, mem, same⟩
      exact other e mem ((toLowerCase_eq_iff spelled e.1).mpr same.symm)
    rw [callMethod_has made, callMethod_get made, (toCStringLen_latin1_iff spelled).mpr ascii,
      toLower_ascii mapRunes ascii, KeyedLists.find_eq_none_iff.mpr none]
    refine ⟨rfl, rfl, fun get has => ?_⟩
    rw [made.found, properties_ne fns protos _ get has, spelled, toLowerCase_latin1,
      KeyedLists.find_eq_none_iff.mpr fun mem => none (mem_keys_stored.mp mem).1]
    rfl

theorem ReadsAlike.fits (alike : ReadsAlike code fns mapRunes rt h s)
    (made : OwnProperties protos (properties fns protos h.headerMap) s)
    (ordinary : OrdinaryPrototypes protos h) : ∀ e ∈ h.entries, Fits protos e := by
  intro e mem
  have low := ascii_narrow (ResponseHeader.ascii_of_mem mem)
  obtain ⟨_, _, property⟩ := alike.present e mem (.narrow e.1) low rfl
  rw [show (Str.narrow e.1).units = latin1 e.1 from rfl, toLowerCase_latin1] at property
  exact (getProperty_header_iff made mem (ordinary.headers e mem)).mp property

end Agreement

section Prototypes

variable {O : Type} {protos : List (Object O (Accessor A))}

def protoName : GoString := ascii "__proto__"

/-- `Object.prototype` as the engine makes it, and as scripts leave it that add or change ordinary
properties. -/
structure PlainPrototypes (protos : List (Object O (Accessor A))) : Prop where
  proto : ∃ enumerable,
    findProperty protos (.string (latin1 protoName)) = some ⟨.accessor .proto, enumerable⟩
  others : ∀ k slot enumerable, k ≠ protoName →
    findProperty protos (.string (latin1 k)) = some ⟨slot, enumerable⟩ → slot.writable = true

namespace PlainPrototypes

theorem assigns_of_ne (plain : PlainPrototypes protos) {k : GoString} (ne : k ≠ protoName) :
    assigns protos k = true := by
  unfold assigns
  cases inherited : findProperty protos (.string (latin1 k)) with
  | none => rfl
  | some prop => exact plain.others k prop.slot prop.enumerable ne inherited

theorem scriptless (plain : PlainPrototypes protos) (k : GoString) : Scriptless protos k := by
  intro a enumerable inherited
  by_cases proto : k = protoName
  · obtain ⟨enumerable', found⟩ := plain.proto
    rw [proto, found] at inherited
    cases inherited
  · have writable := plain.others k _ enumerable proto inherited
    cases writable

theorem ordinary (plain : PlainPrototypes protos) (h : ResponseHeader) :
    OrdinaryPrototypes protos h :=
  ⟨plain.assigns_of_ne (by decide), plain.assigns_of_ne (by decide),
    fun _ _ => plain.scriptless _⟩

/-- Three names have no room on the object. -/
theorem fits_iff (plain : PlainPrototypes protos) (e : GoString × List GoString) :
    Fits protos e ↔ (lowered e).1 ∉ [ascii "get", ascii "has", protoName] := by
  simp only [List.mem_cons, List.not_mem_nil, or_false, not_or]
  constructor
  · rintro ⟨get, has, inherited⟩
    refine ⟨get, has, fun proto => ?_⟩
    obtain ⟨enumerable, found⟩ := plain.proto
    rw [← proto] at found
    rcases inherited _ enumerable found with writable | ⟨_, data⟩
    · cases writable
    · cases data
  · rintro ⟨get, has, proto⟩
    refine ⟨get, has, fun slot enumerable inherited => .inl ?_⟩
    exact plain.others _ slot enumerable proto inherited

end PlainPrototypes

end Prototypes

/-- For every set of response headers, whatever the table of atoms: they read alike exactly if the
object can hold every header. -/
theorem headers_read_alike_iff {E : Engine} (code : ScriptCode E.Obj A) (fns : Closures E.Obj)
    (mapRunes : GoString → GoString) (rt : Rt E) (h : ResponseHeader) (T : Atoms) (ref : E.Obj)
    {protos : List (Object E.Obj (Accessor A))} (ordinary : OrdinaryPrototypes protos h) :
    ReadsAlike code fns mapRunes rt h
        (headersObject code fns mapRunes h (newObject T ref protos)) ↔
      ∀ e ∈ h.entries, Fits protos e := by
  have made := ownProperties_headersObject fns ordinary code mapRunes T ref
  constructor
  · intro alike
    exact alike.fits made ordinary
  · intro fits
    exact made.readsAlike ordinary fits

/-- An engine whose objects are the two methods and `Object.prototype`. -/
def methodsEngine : Engine where
  World := Unit
  Obj := Option HeadersMethod
  Exn := Empty
  toString _ _ := (.ok (js "[object Object]"), ())
  toNumber _ _ := (.ok (.int32 0), ())
  getProperty _ _ _ := (.ok .undefined, ())
  ownKeys _ _ := (.ok [], ())
  getArrayBuffer _ _ := none
  leaves _ _ pending := pending
  numberToString _ := js ""
  stringToNumber _ := .int32 0

def methodClosures : Closures methodsEngine.Obj := ⟨some, id, fun _ => rfl⟩

def noScript : ScriptCode methodsEngine.Obj Empty :=
  ⟨fun a => a.elim, fun a => a.elim, fun v s => if v.isNull then { s with protos := [] } else s⟩

def objectPrototype : Object methodsEngine.Obj (Accessor Empty) where
  ref := none
  props := [(.string (latin1 protoName), ⟨.accessor .proto, false⟩)]
  distinct := List.nodup_singleton _
  extensible := true

theorem plain_objectPrototype : PlainPrototypes [objectPrototype] := by
  refine ⟨⟨false, rfl⟩, fun k slot enumerable ne inherited => ?_⟩
  have other : Key.string (latin1 protoName) ≠ .string (latin1 k) := by
    intro same
    exact ne (latin1_injective (Key.string.inj same)).symm
  have none : objectPrototype.find (.string (latin1 k)) = none :=
    KeyedLists.find_cons_ne other []
  rw [findProperty_of_inherited none] at inherited
  cases inherited

def fixedObject (h : ResponseHeader) : HeadersState methodsEngine.Obj Empty :=
  headersObject noScript methodClosures id h
    (newObject ⟨[], List.nodup_nil⟩ none [objectPrototype])

def cookieHeader : ResponseHeader where
  entries := [(ascii "Set-Cookie", [ascii "a=1", ascii "b=2"])]
  distinct := List.nodup_singleton _
  valid := by decide
  canonical := by decide

theorem headers_read_alike_cookies :
    ReadsAlike noScript methodClosures id ⟨(), none⟩ cookieHeader (fixedObject cookieHeader) := by
  apply (headers_read_alike_iff noScript methodClosures id ⟨(), none⟩ cookieHeader _ none
    (plain_objectPrototype.ordinary cookieHeader)).mpr
  intro e mem
  rw [plain_objectPrototype.fits_iff]
  obtain rfl := List.mem_singleton.mp mem
  decide

def getHeader : ResponseHeader where
  entries := [(ascii "Get", [ascii "1"])]
  distinct := List.nodup_singleton _
  valid := by decide
  canonical := by decide

/-- The header `Get` is hidden behind the method. -/
theorem headers_read_alike_fails :
    ¬ ReadsAlike noScript methodClosures id ⟨(), none⟩ getHeader (fixedObject getHeader) := by
  intro alike
  have ordinary := plain_objectPrototype.ordinary getHeader
  have fits := alike.fits (ownProperties_headersObject methodClosures ordinary noScript id _ none)
    ordinary _ List.mem_cons_self
  exact fits.get (by decide)

end Polyfill
