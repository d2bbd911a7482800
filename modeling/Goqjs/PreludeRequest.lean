import Goqjs.PreludeBuffers
import Goqjs.FetchRequest

/-!
# The set-up of lx.request

Before it calls `fetch`, `lx.request` chooses the body from `body`, `form` and
`formData`, turns an object into text and names its type in the headers.
-/

namespace Prelude

open Quickjs Qjs Polyfill

/-- JavaScript that may throw and may change the world. -/
abbrev Script (E : Engine) (α : Type) := ExceptT (Thrown E.Exn) (StateM E.World) α

/-- The functions of the engine that the prelude calls. `stringify` is used for values other than
buffers and views, and `callToUpperCase` for values other than strings: what their method of that
name returns, if they have one. -/
structure Globals (E : Engine) where
  objects : Objects E.Obj Empty
  objectKeys : Value E.Obj → Script E (List Str)
  getField : Value E.Obj → Str → Script E (Value E.Obj)
  encodeURIComponent : Value E.Obj → Script E Str
  stringify : Value E.Obj → Script E (Value E.Obj)
  toUpperCase : Str → Str
  callToUpperCase : Value E.Obj → Script E (Value E.Obj)

/-- Functions for runs on plain values. -/
def plainGlobals : Globals plainEngine where
  objects := noObjects
  objectKeys
    | .record fields => return fields.map Prod.fst
    | _ => return []
  getField
    | .record fields, key => return plainEngine.fieldOf fields (toCStringLen key)
    | _, _ => return .undefined
  encodeURIComponent
    | .string s => return s
    | _ => return js ""
  stringify _ := return .string (js "\x7b\x7d")
  toUpperCase s := s
  callToUpperCase _ := throw (.typeError "not a function")

variable {E : Engine}

/-- The text of an object that has a property for each element. -/
def jsonOfElements (data : Bytes) : GoString :=
  ascii "\x7b" ++ joinWith (ascii ",") (data.zipIdx.map fun e =>
    ascii "\"" ++ decimal e.2 ++ ascii "\":" ++ decimal e.1.toNat) ++ ascii "\x7d"

/-- `JSON.stringify`. An `ArrayBuffer` has no properties of its own. -/
def jsonStringify (g : Globals E) : Value E.Obj → Script E (Value E.Obj)
  | .arrayBuffer _ => return .string (.narrow (jsonOfElements []))
  | .uint8Array buffer offset length =>
    return .string (.narrow (jsonOfElements (viewBytes buffer offset length)))
  | v => g.stringify v

/-- The own properties of a plain object. -/
structure Fields (O : Type) where
  fields : List (Str × Value O)
  distinct : (fields.map fun f => f.1.units).Nodup

/-- The options that decide the request. Headers that are left out are an empty object. -/
structure Options (O : Type) where
  method : Value O
  headers : Fields O
  body : Value O
  form : Value O
  formData : Value O

/-- `object[name]`, for a plain object. -/
def getName (fields : List (Str × Value E.Obj)) (name : GoString) : Value E.Obj :=
  E.fieldOf fields name

/-- `object[name] = v`. -/
def setName {O : Type} (fields : List (Str × Value O)) (name : GoString) (v : Value O) :
    List (Str × Value O) :=
  if fields.any (fun f => toCStringLen f.1 == name) then
    fields.map (fun f => if toCStringLen f.1 == name then (f.1, v) else f)
  else fields ++ [(.narrow name, v)]

def contentType : GoString := ascii "Content-Type"
def formType : GoString := ascii "application/x-www-form-urlencoded"
def jsonType : GoString := ascii "application/json"

/-- Name the type unless one of two spellings has it. -/
def addType (type : GoString) (headers : List (Str × Value E.Obj)) : List (Str × Value E.Obj) :=
  if !(getName headers contentType).truthy && !(getName headers (ascii "content-type")).truthy then
    setName headers contentType (.string (.narrow type))
  else headers

/-- `(options.method || 'GET').toUpperCase()`. -/
def requestMethod (g : Globals E) (method : Value E.Obj) : Script E (Value E.Obj) :=
  match method.orElse (.string (js "GET")) with
  | .string s => return .string (g.toUpperCase s)
  | v => g.callToUpperCase v

/-- `key=value`, both encoded. -/
def formPart (g : Globals E) (form : Value E.Obj) (key : Str) : Script E Units := do
  let name ← g.encodeURIComponent (.string key)
  let v ← g.getField form key
  let text ← g.encodeURIComponent v
  return name.units ++ [0x3D] ++ text.units

def formText (g : Globals E) (form : Value E.Obj) : Script E Str := do
  let keys ← g.objectKeys form
  let parts ← keys.mapM (formPart g form)
  return .wide (parts.intersperse [0x26]).flatten

abbrev Body (E : Engine) := Value E.Obj × List (Str × Value E.Obj)

/-- The body from `form`, `formData` and `body`, with the headers as they are then. -/
def chooseBody (g : Globals E) (o : Options E.Obj) : Script E (Body E) := do
  if o.form.truthy then
    if typeofObject g.objects o.form then
      let text ← formText g o.form
      return (.string text, addType formType o.headers.fields)
    else return (o.form, o.headers.fields)
  else if o.formData.truthy then return (o.formData, o.headers.fields)
  else return (o.body.orElse .null, o.headers.fields)

/-- An object becomes JSON. -/
def encodeBody (g : Globals E) (b : Body E) : Script E (Body E) := do
  if !b.1.isNull && typeofObject g.objects b.1 then
    let text ← jsonStringify g b.1
    return (text, addType jsonType b.2)
  else return b

/-- What is no object is left as it is. -/
theorem encodeBody_skip (g : Globals E) {b : Body E}
    (skip : (!b.1.isNull && typeofObject g.objects b.1) = false) : encodeBody g b = pure b := by
  unfold encodeBody
  rw [skip]
  rfl

/-- `fetchOptions`. -/
def fetchOptions (method : Value E.Obj) (b : Body E) : Value E.Obj :=
  .record ([(js "method", method), (js "headers", .record b.2)] ++
    if b.1.truthy then [(js "body", b.1)] else [])

/-- `lx.request` up to the call of `fetch`. -/
def request (g : Globals E) (o : Options E.Obj) : Script E (Value E.Obj) := do
  let method ← requestMethod g o.method
  let chosen ← chooseBody g o
  let encoded ← encodeBody g chosen
  return fetchOptions method encoded

/-- The request that `fetch` makes of it, if the set-up does not throw. -/
def sentRequest (g : Globals E) (toUpper : GoString → GoString) (url : Value E.Obj)
    (o : Options E.Obj) (rt : Rt E) : Option FetchRequest :=
  match request g o rt.world with
  | (.ok options, w) =>
    (run E (fetchRequest toUpper [url, options] : Call E.Obj Empty FetchRequest)
      { rt with world := w }).result
  | (.error _, _) => none

section Bind

variable {α β : Type}

theorem script_bind (x : Script E α) (f : α → Script E β) (w : E.World) : (x >>= f) w =
    match x w with
    | (.ok a, w') => f a w'
    | (.error e, w') => (.error e, w') := by
  have eq : (x >>= f) w = (ExceptT.bindCont f (x w).1 : StateM E.World _) (x w).2 := rfl
  rw [eq]
  cases x w with
  | mk r w' => cases r <;> rfl

theorem script_bind_ok_iff {x : Script E α} {f : α → Script E β} {w w' : E.World} {b : β} :
    (x >>= f) w = (.ok b, w') ↔ ∃ a w₁, x w = (.ok a, w₁) ∧ f a w₁ = (.ok b, w') := by
  rw [script_bind]
  rcases x w with ⟨e | a, w₁⟩
  · refine iff_of_false ?_ ?_
    · rintro ⟨⟩
    · rintro ⟨_, _, ⟨⟩, _⟩
  · constructor
    · exact fun h => ⟨a, w₁, rfl, h⟩
    · rintro ⟨_, _, ⟨⟩, h⟩
      exact h

theorem script_pure_ok {a b : α} {w w' : E.World}
    (h : (pure a : Script E α) w = (.ok b, w')) : a = b := by
  cases h
  rfl

end Bind

end Prelude
