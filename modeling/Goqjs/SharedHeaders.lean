import Goqjs.Runs
import Goqjs.ContentType
import Mathlib.Logic.Function.Basic

/-!
# Requests that share a headers object

`lx.request` takes `options.headers` as it is, without a copy, and writes the type of the body into
it. The caller's objects are therefore kept in a store here, and options refer to them by place.
-/

namespace Prelude

open Quickjs Qjs Polyfill Runs

/-- What an option holds: a value of its own, or one of the caller's plain objects. -/
inductive Slot (O : Type) where
  | value (v : Value O)
  | ref (l : Nat)

/-- An options object. `headers` is left out or one of the caller's plain objects. -/
structure SharedOptions (O : Type) where
  method : Slot O
  headers : Option Nat
  body : Slot O
  form : Slot O
  formData : Slot O

/-- The caller's objects. -/
structure Store (O : Type) where
  options : Nat → SharedOptions O
  objects : Nat → Fields O

namespace Store

variable {O : Type}

def read (s : Store O) : Slot O → Value O
  | .value v => v
  | .ref l => .record (s.objects l).fields

def setOptions (s : Store O) (o : Nat) (v : SharedOptions O) : Store O :=
  { s with options := Function.update s.options o v }

def setObject (s : Store O) (l : Nat) (f : Fields O) : Store O :=
  { s with objects := Function.update s.objects l f }

end Store

/-- `headers` of the prelude: the caller's object, or a new one. -/
inductive Headers (O : Type) where
  | callers (l : Nat)
  | own (fields : Fields O)

variable {E : Engine}

/-- JavaScript that may throw, and may change the caller's objects and the world. -/
abbrev Shared (E : Engine) (α : Type) := ExceptT (Thrown E.Exn) (StateT (Store E.Obj) (StateM E.World)) α

/-- A script that leaves the caller's objects alone. -/
def Shared.script {α : Type} (x : Script E α) : Shared E α := fun s w => (((x w).1, s), (x w).2)

theorem addType_distinct (type : GoString) (f : Fields E.Obj) :
    ((addType (E := E) type f.fields).map fun f => f.1.units).Nodup := by
  have keys := nodup_addType (E := E) type f
  rw [keysOf, List.Nodup, List.pairwise_map] at keys
  rw [List.Nodup, List.pairwise_map]
  exact keys.imp fun ne eq => ne (toCStringLen_congr eq)

/-- `addType` on a whole object. -/
def Fields.addType (type : GoString) (f : Fields E.Obj) : Fields E.Obj :=
  ⟨Prelude.addType (E := E) type f.fields, addType_distinct type f⟩

/-- Name the type unless one of two spellings has it: in the caller's object, if it is the
caller's. -/
def addTypeTo (type : GoString) : Headers E.Obj → Shared E (Headers E.Obj)
  | .callers l => do
    modify fun s => s.setObject l ((s.objects l).addType type)
    return .callers l
  | .own fields => return .own (fields.addType type)

def Headers.fields (s : Store E.Obj) : Headers E.Obj → Fields E.Obj
  | .callers l => s.objects l
  | .own fields => fields

/-- The body from `form`, `formData` and `body`. -/
def chooseSharedBody (g : Globals E) (o : SharedOptions E.Obj) (headers : Headers E.Obj) :
    Shared E (Value E.Obj × Headers E.Obj) := do
  let s ← get
  if (s.read o.form).truthy then
    if typeofObject g.objects (s.read o.form) then
      let text ← Shared.script (formText g (s.read o.form))
      let headers ← addTypeTo formType headers
      return (.string text, headers)
    else return (s.read o.form, headers)
  else if (s.read o.formData).truthy then return (s.read o.formData, headers)
  else return ((s.read o.body).orElse .null, headers)

/-- An object becomes JSON. -/
def encodeSharedBody (g : Globals E) (b : Value E.Obj × Headers E.Obj) :
    Shared E (Value E.Obj × Headers E.Obj) := do
  if !b.1.isNull && typeofObject g.objects b.1 then
    let text ← Shared.script (jsonStringify g b.1)
    let headers ← addTypeTo jsonType b.2
    return (text, headers)
  else return b

/-- `options.headers || {}`. -/
def SharedOptions.headersVar (o : SharedOptions E.Obj) : Headers E.Obj :=
  match o.headers with
  | some l => .callers l
  | none => .own ⟨[], List.nodup_nil⟩

/-- `lx.request` up to the call of `fetch`, with the content that `headers` has then. -/
def sharedRequest (g : Globals E) (o : SharedOptions E.Obj) : Shared E (Value E.Obj) := do
  let s ← get
  let method ← Shared.script (requestMethod g (s.read o.method))
  let chosen ← chooseSharedBody g o o.headersVar
  let encoded ← encodeSharedBody g chosen
  let s ← get
  return fetchOptions method (encoded.1, (encoded.2.fields s).fields)

/-- The values in the options. -/
def Store.seen (s : Store E.Obj) (o : SharedOptions E.Obj) : Options E.Obj where
  method := s.read o.method
  headers := o.headersVar.fields s
  body := s.read o.body
  form := s.read o.form
  formData := s.read o.formData

/-- The store after a type has been named, if one is. -/
def Store.withType (s : Store E.Obj) (o : SharedOptions E.Obj) (type : Option GoString) :
    Store E.Obj :=
  match o.headers, type with
  | some l, some type => s.setObject l ((s.objects l).addType type)
  | _, _ => s

section Bind

variable {α β : Type}

theorem shared_bind (x : Shared E α) (f : α → Shared E β) (s : Store E.Obj) (w : E.World) :
    (x >>= f) s w =
      match x s w with
      | ((.ok a, s'), w') => f a s' w'
      | ((.error e, s'), w') => ((.error e, s'), w') := by
  have eq : (x >>= f) s w =
    (ExceptT.bindCont f (x s w).1.1 : StateT _ (StateM E.World) _) (x s w).1.2 (x s w).2 := rfl
  rw [eq]
  cases x s w with
  | mk r w' =>
    cases r with
    | mk r s' => cases r <;> rfl

theorem script_then (x : Script E α) (f : α → Shared E β) (s : Store E.Obj) (w : E.World) :
    (Shared.script x >>= f) s w =
      match x w with
      | (.ok a, w') => f a s w'
      | (.error e, w') => ((.error e, s), w') := by
  rw [shared_bind]
  change (match (((x w).1, s), (x w).2) with
      | ((.ok a, s'), w') => f a s' w'
      | ((.error e, s'), w') => ((.error e, s'), w')) = _
  cases x w with
  | mk r w' => cases r <;> rfl

end Bind

/-- The variable `headers` after a type has been named, if one is. -/
def SharedOptions.varAfter (o : SharedOptions E.Obj) (type : Option GoString) : Headers E.Obj :=
  match o.headers, type with
  | some l, _ => .callers l
  | none, some type => .own (Fields.addType type ⟨[], List.nodup_nil⟩)
  | none, none => .own ⟨[], List.nodup_nil⟩

theorem addTypeTo_eq (type : GoString) (o : SharedOptions E.Obj) (s : Store E.Obj) (w : E.World) :
    addTypeTo type o.headersVar s w =
      ((.ok (o.varAfter (some type)), s.withType o (some type)), w) := by
  unfold SharedOptions.headersVar SharedOptions.varAfter Store.withType
  cases o.headers <;> rfl

/-- An object is no text. -/
theorem encodeSharedBody_skip (g : Globals E) {b : Value E.Obj × Headers E.Obj}
    (skip : (!b.1.isNull && typeofObject g.objects b.1) = false) (s : Store E.Obj) (w : E.World) :
    encodeSharedBody g b s w = ((.ok b, s), w) := by
  unfold encodeSharedBody
  rw [skip]
  rfl

theorem varAfter_none (o : SharedOptions E.Obj) : o.varAfter none = o.headersVar := by
  unfold SharedOptions.headersVar SharedOptions.varAfter
  cases o.headers <;> rfl

theorem withType_none (s : Store E.Obj) (o : SharedOptions E.Obj) : s.withType o none = s := by
  unfold Store.withType
  cases o.headers <;> rfl

/-- How a script on values ends, told of the store: the type is named if nothing was thrown. -/
def Store.ending (s : Store E.Obj) (o : SharedOptions E.Obj) (type : Option GoString) :
    Except (Thrown E.Exn) (Body E) × E.World →
      (Except (Thrown E.Exn) (Value E.Obj × Headers E.Obj) × Store E.Obj) × E.World
  | (.ok b, w) => ((.ok (b.1, o.varAfter type), s.withType o type), w)
  | (.error e, w) => ((.error e, s), w)

/-- An object is encoded on the store as on its values. -/
theorem encodeSharedBody_eq (g : Globals E) (o : SharedOptions E.Obj) (s : Store E.Obj)
    (v : Value E.Obj) (w : E.World) : encodeSharedBody g (v, o.headersVar) s w =
      s.ending o (if !v.isNull && typeofObject g.objects v then some jsonType else none)
        (encodeBody g (v, (s.seen o).headers.fields) w) := by
  by_cases object : (!v.isNull && typeofObject g.objects v) = true
  · unfold encodeSharedBody encodeBody
    simp only [object, if_true, script_then, script_bind]
    cases jsonStringify g v w with
    | mk r w' =>
      cases r with
      | error e => rfl
      | ok text =>
        dsimp only
        rw [shared_bind, addTypeTo_eq]
        rfl
  · have skip : (!v.isNull && typeofObject g.objects v) = false := by simpa using object
    rw [encodeSharedBody_skip g skip, encodeBody_skip g skip, if_neg object]
    simp only [Store.ending, varAfter_none, withType_none]
    rfl

theorem sharedBody_eq (g : Globals E) (o : SharedOptions E.Obj) (s : Store E.Obj) (w : E.World) :
    (chooseSharedBody g o o.headersVar >>= encodeSharedBody g) s w =
      s.ending o (encodedType g (s.seen o)) ((chooseBody g (s.seen o) >>= encodeBody g) w) := by
  have start (x : Store E.Obj → Shared E (Value E.Obj × Headers E.Obj)) :
      (get >>= x) s w = x s s w := rfl
  rw [shared_bind, script_bind]
  unfold chooseSharedBody chooseBody encodedType
  rw [start]
  by_cases form : (s.read o.form).truthy = true
  · have seen : (s.seen o).form.truthy = true := form
    rw [if_pos form, if_pos seen, if_pos seen]
    by_cases object : typeofObject g.objects (s.read o.form) = true
    · have seen : typeofObject g.objects (s.seen o).form = true := object
      rw [if_pos object, if_pos seen, if_pos seen, script_then, script_bind]
      rw [show (s.seen o).form = s.read o.form from rfl]
      cases formText g (s.read o.form) w with
      | mk r w' =>
        cases r with
        | error e => rfl
        | ok text =>
          -- the form is text now, so it does not become JSON
          dsimp only
          rw [shared_bind, addTypeTo_eq]
          exact (encodeSharedBody_skip g rfl _ _).trans rfl
    · have seen : ¬ typeofObject g.objects (s.seen o).form = true := object
      have skip : (!(s.read o.form).isNull && typeofObject g.objects (s.read o.form)) = false := by
        simp [object]
      rw [if_neg object, if_neg seen, if_neg seen]
      change encodeSharedBody g (s.read o.form, o.headersVar) s w =
        s.ending o none (encodeBody g (s.read o.form, (s.seen o).headers.fields) w)
      rw [encodeSharedBody_eq, skip]
      rfl
  · have seen : ¬ (s.seen o).form.truthy = true := form
    rw [if_neg form, if_neg seen, if_neg seen]
    by_cases formData : (s.read o.formData).truthy = true
    · have seen : (s.seen o).formData.truthy = true := formData
      rw [if_pos formData, if_pos seen, if_pos seen]
      exact encodeSharedBody_eq g o s (s.read o.formData) w
    · have seen : ¬ (s.seen o).formData.truthy = true := formData
      rw [if_neg formData, if_neg seen, if_neg seen]
      exact encodeSharedBody_eq g o s ((s.read o.body).orElse .null) w

theorem fields_varAfter (g : Globals E) (o : SharedOptions E.Obj) (s : Store E.Obj) :
    ((o.varAfter (encodedType g (s.seen o))).fields
      (s.withType o (encodedType g (s.seen o)))).fields = finalHeaders g (s.seen o) := by
  have start : (s.seen o).headers = o.headersVar.fields s := rfl
  unfold finalHeaders
  rw [start]
  unfold SharedOptions.varAfter Store.withType SharedOptions.headersVar
  cases o.headers with
  | none => cases encodedType g (s.seen o) <;> rfl
  | some l =>
    cases encodedType g (s.seen o) with
    | none => rfl
    | some type =>
      simp only [Headers.fields, Store.setObject, Function.update_self]
      rfl

/-- What reaches `fetch` is what the values in the options give, and a type that is named stays
in the caller's object. -/
theorem sharedRequest_eq (g : Globals E) (o : SharedOptions E.Obj) (s : Store E.Obj) (w : E.World) :
    sharedRequest g o s w =
      (((request g (s.seen o) w).1,
        match (request g (s.seen o) w).1 with
        | .ok _ => s.withType o (encodedType g (s.seen o))
        | .error _ => s), (request g (s.seen o) w).2) := by
  have start (x : Store E.Obj → Shared E (Value E.Obj)) : (get >>= x) s w = x s s w := rfl
  have body := sharedBody_eq g o s
  unfold sharedRequest request
  rw [start, script_then, script_bind, show (s.seen o).method = s.read o.method from rfl]
  cases requestMethod g (s.read o.method) w with
  | mk r w₁ =>
    cases r with
    | error e => rfl
    | ok method =>
      dsimp only
      rw [← bind_assoc, ← bind_assoc, shared_bind, script_bind, body w₁]
      cases done : (chooseBody g (s.seen o) >>= encodeBody g) w₁ with
      | mk r w₂ =>
        cases r with
        | error e => rfl
        | ok encoded =>
          obtain ⟨chosen, w', choose, encode⟩ := script_bind_ok_iff.mp done
          have same := (fields_varAfter g o s).trans (encoded_headers choose encode).symm
          let type := encodedType g (s.seen o)
          let fields := ((o.varAfter type).fields (s.withType o type)).fields
          change ((Except.ok (fetchOptions method (encoded.1, fields)), s.withType o type), w₂) = _
          rw [show fields = encoded.2 from same]
          rfl

/-- What a script does: a call of `lx.request`, or a write into one of its own objects. -/
inductive ScriptStep (O : Type) where
  | request (o : Nat)
  | setOptions (o : Nat) (v : SharedOptions O)
  | setObject (l : Nat) (f : Fields O)

/-- What the call with an options object passes to `fetch`, or throws. -/
abbrev Passed (E : Engine) := Nat × Except (Thrown E.Exn) (Value E.Obj)

def step (g : Globals E) : Step (Store E.Obj × E.World) (ScriptStep E.Obj) (Passed E)
  | (s, w), .request o =>
    let r := sharedRequest g (s.options o) s w
    some ((r.1.2, r.2), [(o, r.1.1)])
  | (s, w), .setOptions o v => some ((s.setOptions o v, w), [])
  | (s, w), .setObject l f => some ((s.setObject l f, w), [])

/-- Requests that do not know of each other: each passes on what its own options give, and writes
nothing. -/
def isolatedStep (g : Globals E) : Step (Store E.Obj × E.World) (ScriptStep E.Obj) (Passed E)
  | (s, w), .request o =>
    let r := request g (s.seen (s.options o)) w
    some ((s, r.2), [(o, r.1)])
  | (s, w), .setOptions o v => some ((s.setOptions o v, w), [])
  | (s, w), .setObject l f => some ((s.setObject l f, w), [])

/-- A request leaves all of the caller's objects as they are. -/
def LeavesObjects (g : Globals E) (s : Store E.Obj × E.World) (a : ScriptStep E.Obj) : Prop :=
  ∀ o t passed, a = .request o → step g s a = some (t, passed) → t.1 = s.1

/-- A request with a headers object of the caller's finds nothing to add to it. -/
def AddsNoType (g : Globals E) (s : Store E.Obj × E.World) (a : ScriptStep E.Obj) : Prop :=
  ∀ o l, a = .request o → (s.1.options o).headers = some l →
    addedType g (s.1.seen (s.1.options o)) = none

theorem headers_seen {s : Store E.Obj} {o : SharedOptions E.Obj} {l : Nat}
    (headers : o.headers = some l) : (s.seen o).headers = s.objects l := by
  unfold Store.seen SharedOptions.headersVar
  rw [headers]
  rfl

theorem withType_of_addsNoType {g : Globals E} {s : Store E.Obj} {o : SharedOptions E.Obj}
    (none : ∀ l, o.headers = some l → addedType g (s.seen o) = none) :
    s.withType o (encodedType g (s.seen o)) = s := by
  unfold Store.withType
  cases headers : o.headers with
  | none => rfl
  | some l =>
    cases encoded : encodedType g (s.seen o) with
    | none => rfl
    | some type =>
      have kept := none l headers
      rw [addedType, encoded, headers_seen headers] at kept
      have same : (s.objects l).addType type = s.objects l := by
        unfold Fields.addType addType
        split_ifs at kept ⊢
        rfl
      simp only [same, Store.setObject, Function.update_eq_self]

theorem step_eq_isolatedStep {g : Globals E} {s : Store E.Obj × E.World} {a : ScriptStep E.Obj}
    (ok : AddsNoType g s a) : step g s a = isolatedStep g s a := by
  obtain ⟨s, w⟩ := s
  cases a with
  | request o =>
    have kept := withType_of_addsNoType (g := g) fun l => ok o l rfl
    simp only [step, isolatedStep, sharedRequest_eq, kept]
    split <;> rfl
  | setOptions o v => rfl
  | setObject l f => rfl

theorem leavesObjects_of_addsNoType {g : Globals E} {s : Store E.Obj × E.World}
    {a : ScriptStep E.Obj} (ok : AddsNoType g s a) : LeavesObjects g s a := by
  rintro o t passed rfl h
  rw [step_eq_isolatedStep ok] at h
  cases h
  rfl

theorem truthy_encodedType {g : Globals E} {o : Options E.Obj} {type : GoString}
    (h : encodedType g o = some type) : (Value.string (.narrow type) : Value E.Obj).truthy = true := by
  unfold encodedType at h
  dsimp only at h
  split_ifs at h <;> cases h <;> rfl

theorem withType_ne {g : Globals E} {s : Store E.Obj} {o : SharedOptions E.Obj} {l : Nat}
    {type : GoString} (headers : o.headers = some l)
    (added : addedType g (s.seen o) = some type) :
    s.withType o (encodedType g (s.seen o)) ≠ s := by
  rw [addedType, headers_seen headers] at added
  split_ifs at added with falsy
  have written : addType (E := E) type (s.objects l).fields =
      setName (s.objects l).fields contentType (.string (.narrow type)) := if_pos falsy
  have object : (s.withType o (some type)).objects l = (s.objects l).addType type := by
    simp [Store.withType, headers, Store.setObject]
  intro same
  rw [added] at same
  have kept : addType (E := E) type (s.objects l).fields = (s.objects l).fields := by
    rw [same] at object
    exact congrArg Fields.fields object.symm
  -- the name would have had the type before
  have name : getName (E := E) (s.objects l).fields contentType = .string (.narrow type) := by
    rw [← kept, written]
    exact fieldOf_setName_self (by decide)
  rw [name, truthy_encodedType added] at falsy
  cases falsy

/-- A type that is added to the caller's object stays there. -/
theorem not_leavesObjects {g : Globals E} {s : Store E.Obj} {w w' : E.World} {o : Nat}
    {v : Value E.Obj} (reaches : request g (s.seen (s.options o)) w = (.ok v, w'))
    (adds : ¬ AddsNoType g (s, w) (.request o)) : ¬ LeavesObjects g (s, w) (.request o) := by
  intro leaves
  refine adds fun o' l same headers => ?_
  obtain rfl := ScriptStep.request.inj same
  have after := leaves _ _ _ rfl rfl
  rw [sharedRequest_eq, reaches] at after
  cases added : addedType g (s.seen (s.options o)) with
  | none => rfl
  | some type => exact absurd after (withType_ne headers added)

/-- Where no request adds a type to a headers object of the caller's, requests leave the caller's
objects alone, and each passes on what its own options give. A request that adds one and comes to
`fetch` changes the headers object. -/
theorem requests_isolated (E : Engine) (g : Globals E) (as : List (ScriptStep E.Obj))
    (s : Store E.Obj) (w : E.World) :
    (AllSteps (step g) (AddsNoType g) (s, w) as →
      AllSteps (step g) (LeavesObjects g) (s, w) as ∧
        exec (step g) (s, w) as = exec (isolatedStep g) (s, w) as) ∧
    ∀ o v w', request g (s.seen (s.options o)) w = (.ok v, w') →
      ¬ AddsNoType g (s, w) (.request o) → ¬ LeavesObjects g (s, w) (.request o) := by
  refine ⟨fun steps => ?_, fun o v w' => not_leavesObjects⟩
  induction as generalizing s w with
  | nil => exact ⟨trivial, rfl⟩
  | cons a as ih =>
    have first := step_eq_isolatedStep steps.1
    have rest (t : Store E.Obj × E.World) (passed : List (Passed E))
        (h : step g (s, w) a = some (t, passed)) := ih t.1 t.2 (steps.2 t passed h)
    constructor
    · exact ⟨leavesObjects_of_addsNoType steps.1, fun t passed h => (rest t passed h).1⟩
    · cases h : step g (s, w) a with
      | none => simp only [exec, ← first, h]
      | some r => simp only [exec, ← first, h, (rest r.1 r.2 h).2]

/-- Options 0 send a form and options 1 an object; both use headers object 0. -/
def sharedStore (headers : Fields plainEngine.Obj) : Store plainEngine.Obj where
  options
    | 0 => ⟨.value .undefined, some 0, .value .undefined,
        .value (.record [(js "a", .string (js "1"))]), .value .undefined⟩
    | _ => ⟨.value .undefined, some 0, .value (.record []), .value .undefined, .value .undefined⟩
  objects _ := headers

def typedHeaders : Fields plainEngine.Obj :=
  ⟨[(js "content-type", .string (js "text/plain"))], List.nodup_singleton _⟩

/-- With a type of the caller's the two requests are as if each were alone. -/
theorem requests_isolated_typed : ∃ r,
    exec (step plainGlobals) (sharedStore typedHeaders, ()) [.request 0, .request 1] = some r ∧
    exec (isolatedStep plainGlobals) (sharedStore typedHeaders, ()) [.request 0, .request 1] =
      some r := by
  refine ⟨_, rfl, ?_⟩
  refine (((requests_isolated plainEngine plainGlobals [.request 0, .request 1] _ ()).1 ?_).2).symm
  refine allSteps_cons ?_ rfl (allSteps_cons ?_ rfl trivial)
  · rintro o l same -
    cases same
    rfl
  · rintro o l same -
    cases same
    rfl

/-- The form's type stays in the shared object, and the second request sends it with its JSON. -/
theorem requests_isolated_fails :
    (exec (step plainGlobals) (sharedStore ⟨[], List.nodup_nil⟩, ()) [.request 0, .request 1]).map
      Prod.snd = some
        [(0, .ok (fetchOptions (.string (js "GET")) (.string (.wide (js "a=1").units),
          [(.narrow contentType, .string (.narrow formType))]))),
         (1, .ok (fetchOptions (.string (js "GET")) (.string (js "\x7b\x7d"),
          [(.narrow contentType, .string (.narrow formType))])))] ∧
    (exec (isolatedStep plainGlobals) (sharedStore ⟨[], List.nodup_nil⟩, ())
      [.request 0, .request 1]).map Prod.snd = some
        [(0, .ok (fetchOptions (.string (js "GET")) (.string (.wide (js "a=1").units),
          [(.narrow contentType, .string (.narrow formType))]))),
         (1, .ok (fetchOptions (.string (js "GET")) (.string (js "\x7b\x7d"),
          [(.narrow contentType, .string (.narrow jsonType))])))] ∧
    formType ≠ jsonType :=
  ⟨rfl, rfl, by decide⟩

end Prelude
