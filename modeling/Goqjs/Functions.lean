import Goqjs.Runs
import Goqjs.Bindings
import Mathlib.Logic.Function.Basic

/-!
# The registry of Go functions

`fnRegistry`, `fnCounter` and `ctxRegistry` are shared by all runtimes. An operation
is a sequence of accesses to them, each atomic by its mutex; a runtime is inside
one operation at a time, and the accesses of different runtimes interleave freely.
A `JSContext` is an address, which can be used again once no reference to it is left.
-/

namespace Functions

open Runs Qjs

abbrev Addr := Nat
abbrev ContextId := Nat
abbrev RuntimeId := Nat

/-- The Go `Context`. `ctx` and `fns` are nil after `Close`; `locked` is `fnsMu` when a call
that has panicked still holds it. -/
structure Context where
  ctx : Option Addr
  rt : RuntimeId
  fns : Option (List Int)
  locked : Bool
  deriving DecidableEq

/-- A function object of the engine with its function data. `owner` and `fn` say what it was
created with; no step reads them. -/
structure Object (F : Type) where
  rt : RuntimeId
  data : Number
  owner : ContextId
  fn : F

/-- Where a runtime is inside its operation: the statement that comes next. `owner` is `v.ctx`,
which may be nil in `SetFunction`; `rest` are the ids that the loop of `Close` still has. -/
inductive Pc (F : Type) where
  | idle
  | newContext (ctx : Addr)
  | register (owner : Option ContextId) (id : Int) (fn : F)
  | track (owner : Option ContextId) (id : Int) (fn : F)
  | create (owner : Option ContextId) (id : Int) (fn : F)
  | unregister (c : ContextId) (rest : List Int)
  | leave (c : ContextId)
  | free (c : ContextId)
  | invoke (o : Nat) (caller : Addr) (fn : F)

/-- `home` says which `JSContext`s are allocated, and in which runtime. -/
structure State (F : Type) where
  fnCounter : Nat
  fnRegistry : Int → Option F
  ctxRegistry : Addr → Option ContextId
  contexts : List Context
  objects : List (Object F)
  home : Addr → Option RuntimeId
  pc : RuntimeId → Pc F

def init (F : Type) : State F where
  fnCounter := 0
  fnRegistry _ := none
  ctxRegistry _ := none
  contexts := []
  objects := []
  home _ := none
  pc _ := .idle

inductive Event (F : Type) where
  | registered (r : RuntimeId) (owner : Option ContextId) (id : Int) (fn : F)
  | panicked (r : RuntimeId)
  | closed (c : ContextId)
  | ran (r : RuntimeId) (o : Nat) (fn : F) (c : ContextId)
  | threw (r : RuntimeId) (o : Nat) (msg : GoString)

variable {F : Type}

namespace State

variable (s : State F)

def goto (r : RuntimeId) (p : Pc F) : State F := { s with pc := Function.update s.pc r p }

def setFunction (id : Int) (fn : Option F) : State F :=
  { s with fnRegistry := Function.update s.fnRegistry id fn }

def setEntry (ctx : Addr) (c : Option ContextId) : State F :=
  { s with ctxRegistry := Function.update s.ctxRegistry ctx c }

def setContext (c : ContextId) (x : Context) : State F :=
  { s with contexts := s.contexts.set c x }

def setHome (ctx : Addr) (r : Option RuntimeId) : State F :=
  { s with home := Function.update s.home ctx r }

def addContext (x : Context) : State F := { s with contexts := s.contexts ++ [x] }

def addObject (obj : Object F) : State F := { s with objects := s.objects ++ [obj] }

def isIdle (r : RuntimeId) : Bool :=
  match s.pc r with
  | .idle => true
  | _ => false

end State

abbrev Result (F : Type) := Option (State F × List (Event F))

/-- `Runtime.NewContext` up to `JS_NewContext`, which gives an address that is not in use. -/
def newContext (s : State F) (r : RuntimeId) (ctx : Addr) : Result F :=
  if s.isIdle r && (s.home ctx).isNone then
    some ((s.setHome ctx (some r)).goto r (.newContext ctx), [])
  else none

/-- `fnCounter.Add(1)` in `registerFunction`. -/
def registerFunction (s : State F) (r : RuntimeId) (owner : Option ContextId) (fn : F) :
    Result F :=
  let id : Int := s.fnCounter + 1
  some ({ s with fnCounter := s.fnCounter + 1 }.goto r (.register owner id fn),
    [.registered r owner id fn])

/-- Whether the context belongs to the runtime. -/
def State.owns (s : State F) (r : RuntimeId) (c : ContextId) : Bool :=
  match s.contexts[c]? with
  | some x => x.rt == r
  | none => false

/-- `Context.NewFunction`. -/
def newFunction (s : State F) (r : RuntimeId) (c : ContextId) (fn : F) : Result F :=
  if s.isIdle r && s.owns r c then registerFunction s r (some c) fn else none

/-- `Value.SetFunction`, where the context of the value may be nil. -/
def setFunction (s : State F) (r : RuntimeId) (owner : Option ContextId) (fn : F) : Result F :=
  if s.isIdle r && owner.all (s.owns r) then registerFunction s r owner fn else none

/-- `Context.Close` up to its loop; a context that is closed already is left alone. -/
def close (s : State F) (r : RuntimeId) (c : ContextId) : Result F :=
  match s.contexts[c]? with
  | none => none
  | some x =>
    if s.isIdle r && x.rt == r then
      match x.ctx with
      | none => some (s, [])
      | some _ => some (s.goto r (.unregister c (x.fns.getD [])), [])
    else none

/-- One round of the loop of `Close`, for an id that it has not had yet. -/
def unregisterFunction (s : State F) (r : RuntimeId) (id : Int) : Result F :=
  match s.pc r with
  | .unregister c rest =>
    if id ∈ rest then
      some ((s.setFunction id none).goto r (.unregister c (rest.filter (· != id))), [])
    else none
  | _ => none

/-- A function object is called by code of the `JSContext` `caller`: `goqjs_proxy_fn` and
`goInvokeFunction` up to the first lookup. -/
def call (s : State F) (r : RuntimeId) (o : Nat) (caller : Addr) : Result F :=
  match s.objects[o]? with
  | none => none
  | some obj =>
    if s.isIdle r && obj.rt == r && s.home caller == some r then
      match s.fnRegistry (toInt64 obj.data) with
      | none => some (s, [.threw r o (ascii "goqjs: unknown function ID")])
      | some fn => some (s.goto r (.invoke o caller fn), [])
    else none

/-- The last reference to a `JSContext` goes. Go holds one until `Close` has freed it. -/
def collect (s : State F) (r : RuntimeId) (ctx : Addr) : Result F :=
  if s.isIdle r && s.home ctx == some r && s.contexts.all (fun x => x.ctx != some ctx) then
    some (s.setHome ctx none, [])
  else none

/-- The next statement of the operation that the runtime is in. -/
def next (s : State F) (r : RuntimeId) : Result F :=
  match s.pc r with
  | .idle => none
  | .newContext ctx =>
    some (((s.addContext ⟨some ctx, r, some [], false⟩).setEntry ctx
      (some s.contexts.length)).goto r .idle, [])
  | .register owner id fn => some ((s.setFunction id (some fn)).goto r (.track owner id fn), [])
  | .track none id fn => some (s.goto r (.create none id fn), [])
  | .track (some c) id fn =>
    match s.contexts[c]? with
    | none => none
    | some x =>
      if x.locked then none
      else
        match x.fns with
        -- assignment to an entry of a nil map, with the mutex held
        | none => some ((s.setContext c { x with locked := true }).goto r .idle, [.panicked r])
        | some fns =>
          some ((s.setContext c { x with fns := some (id :: fns) }).goto r
            (.create (some c) id fn), [])
  -- `v.ctx.ctx` of a nil pointer
  | .create none _ _ => some (s.goto r .idle, [.panicked r])
  | .create (some c) id fn =>
    some ((s.addObject ⟨r, newInt64 id, c, fn⟩).goto r .idle, [])
  | .unregister c [] =>
    match s.contexts[c]? with
    | none => none
    | some x => some ((s.setContext c { x with fns := none }).goto r (.leave c), [])
  | .unregister _ (_ :: _) => none
  | .leave c =>
    match s.contexts[c]? with
    | some ⟨some ctx, _, _, _⟩ => some ((s.setEntry ctx none).goto r (.free c), [])
    | _ => none
  | .free c =>
    match s.contexts[c]? with
    | none => none
    | some x => some ((s.setContext c { x with ctx := none }).goto r .idle, [.closed c])
  | .invoke o caller fn =>
    match s.ctxRegistry caller with
    | none => some (s.goto r .idle, [.threw r o (ascii "goqjs: context not found")])
    | some c => some (s.goto r .idle, [.ran r o fn c])

inductive Action (F : Type) where
  | newContext (r : RuntimeId) (ctx : Addr)
  | newFunction (r : RuntimeId) (c : ContextId) (fn : F)
  | setFunction (r : RuntimeId) (owner : Option ContextId) (fn : F)
  | close (r : RuntimeId) (c : ContextId)
  | unregisterFunction (r : RuntimeId) (id : Int)
  | call (r : RuntimeId) (o : Nat) (caller : Addr)
  | collect (r : RuntimeId) (ctx : Addr)
  | next (r : RuntimeId)

def Action.runtime : Action F → RuntimeId
  | .newContext r _ | .newFunction r _ _ | .setFunction r _ _ | .close r _
  | .unregisterFunction r _ | .call r _ _ | .collect r _ | .next r => r

def step (s : State F) : Action F → Result F
  | .newContext r ctx => newContext s r ctx
  | .newFunction r c fn => newFunction s r c fn
  | .setFunction r owner fn => setFunction s r owner fn
  | .close r c => close s r c
  | .unregisterFunction r id => unregisterFunction s r id
  | .call r o caller => call s r o caller
  | .collect r ctx => collect s r ctx
  | .next r => next s r

/-- One constructor for each way a step can go, with its guard. -/
inductive Transition (s : State F) : Action F → State F → List (Event F) → Prop where
  | newContext {r : RuntimeId} {ctx : Addr} (idle : s.pc r = .idle) (unused : s.home ctx = none) :
      Transition s (.newContext r ctx) ((s.setHome ctx (some r)).goto r (.newContext ctx)) []
  | register {r : RuntimeId} {owner : Option ContextId} {fn : F} {a : Action F}
      (call : a = .setFunction r owner fn ∨ ∃ c, owner = some c ∧ a = .newFunction r c fn)
      (idle : s.pc r = .idle) (owned : ∀ c, owner = some c → s.owns r c = true) :
      Transition s a
        ({ s with fnCounter := s.fnCounter + 1 }.goto r (.register owner (s.fnCounter + 1) fn))
        [.registered r owner (s.fnCounter + 1) fn]
  | closeAgain {r : RuntimeId} {c : Nat} {x : Context} (found : s.contexts[c]? = some x)
      (closed : x.ctx = none) : Transition s (.close r c) s []
  | close {r : RuntimeId} {c : Nat} {x : Context} {ctx : Addr} (idle : s.pc r = .idle)
      (found : s.contexts[c]? = some x) (rt : x.rt = r) (opened : x.ctx = some ctx) :
      Transition s (.close r c) (s.goto r (.unregister c (x.fns.getD []))) []
  | unregisterFunction {r : RuntimeId} {c : ContextId} {rest : List Int} {id : Int}
      (pc : s.pc r = .unregister c rest) (left : id ∈ rest) :
      Transition s (.unregisterFunction r id)
        ((s.setFunction id none).goto r (.unregister c (rest.filter (· != id)))) []
  | callUnknown {r : RuntimeId} {o : Nat} {caller : Addr} {obj : Object F}
      (found : s.objects[o]? = some obj) (unknown : s.fnRegistry (toInt64 obj.data) = none) :
      Transition s (.call r o caller) s [.threw r o (ascii "goqjs: unknown function ID")]
  | call {r : RuntimeId} {o : Nat} {caller : Addr} {obj : Object F} {fn : F} (idle : s.pc r = .idle)
      (found : s.objects[o]? = some obj) (rt : obj.rt = r) (home : s.home caller = some r)
      (known : s.fnRegistry (toInt64 obj.data) = some fn) :
      Transition s (.call r o caller) (s.goto r (.invoke o caller fn)) []
  | collect {r : RuntimeId} {ctx : Addr} (idle : s.pc r = .idle) (home : s.home ctx = some r) :
      Transition s (.collect r ctx) (s.setHome ctx none) []
  | contextMade {r : RuntimeId} {ctx : Addr} (pc : s.pc r = .newContext ctx) :
      Transition s (.next r)
        (((s.addContext ⟨some ctx, r, some [], false⟩).setEntry ctx
          (some s.contexts.length)).goto r .idle) []
  | store {r : RuntimeId} {owner : Option ContextId} {id : Int} {fn : F}
      (pc : s.pc r = .register owner id fn) :
      Transition s (.next r) ((s.setFunction id (some fn)).goto r (.track owner id fn)) []
  | trackNil {r : RuntimeId} {id : Int} {fn : F} (pc : s.pc r = .track none id fn) :
      Transition s (.next r) (s.goto r (.create none id fn)) []
  | trackClosed {r : RuntimeId} {c : Nat} {id : Int} {fn : F} {x : Context}
      (pc : s.pc r = .track (some c) id fn) (found : s.contexts[c]? = some x)
      (none : x.fns = none) :
      Transition s (.next r) ((s.setContext c { x with locked := true }).goto r .idle)
        [.panicked r]
  | track {r : RuntimeId} {c : Nat} {id : Int} {fn : F} {x : Context} {fns : List Int}
      (pc : s.pc r = .track (some c) id fn) (found : s.contexts[c]? = some x)
      (some : x.fns = some fns) :
      Transition s (.next r)
        ((s.setContext c { x with fns := .some (id :: fns) }).goto r (.create (.some c) id fn)) []
  | createNil {r : RuntimeId} {id : Int} {fn : F} (pc : s.pc r = .create none id fn) :
      Transition s (.next r) (s.goto r .idle) [.panicked r]
  | create {r : RuntimeId} {c : ContextId} {id : Int} {fn : F}
      (pc : s.pc r = .create (some c) id fn) :
      Transition s (.next r) ((s.addObject ⟨r, newInt64 id, c, fn⟩).goto r .idle) []
  | forget {r : RuntimeId} {c : Nat} {x : Context} (pc : s.pc r = .unregister c [])
      (found : s.contexts[c]? = some x) :
      Transition s (.next r) ((s.setContext c { x with fns := none }).goto r (.leave c)) []
  | leave {r : RuntimeId} {c : Nat} {x : Context} {ctx : Addr} (pc : s.pc r = .leave c)
      (found : s.contexts[c]? = some x) (opened : x.ctx = some ctx) :
      Transition s (.next r) ((s.setEntry ctx none).goto r (.free c)) []
  | free {r : RuntimeId} {c : Nat} {x : Context} (pc : s.pc r = .free c)
      (found : s.contexts[c]? = some x) :
      Transition s (.next r) ((s.setContext c { x with ctx := none }).goto r .idle) [.closed c]
  | noContext {r : RuntimeId} {o : Nat} {caller : Addr} {fn : F}
      (pc : s.pc r = .invoke o caller fn) (unknown : s.ctxRegistry caller = none) :
      Transition s (.next r) (s.goto r .idle) [.threw r o (ascii "goqjs: context not found")]
  | ran {r : RuntimeId} {o : Nat} {caller : Addr} {fn : F} {c : ContextId}
      (pc : s.pc r = .invoke o caller fn) (known : s.ctxRegistry caller = some c) :
      Transition s (.next r) (s.goto r .idle) [.ran r o fn c]

end Functions
