import Goqjs.Runs
import Goqjs.JsValues
import Goqjs.Promises

/-!
# lx.request

After its set-up `lx.request` issues a fetch and hangs one chain of callbacks on
it: the response is read, then the user's callback is called with the parsed
body; any error in between comes to a last callback that calls the user's
callback with it. The returned cancel function sets `aborted`, which each of
the three tests when it starts. The actions are what may happen next; between
such a test and the call of the user's callback other code of the user may run.
-/

namespace Requests

open Runs Js

variable {V : Type}

/-- The promises: the user's and the runtime's, and of each request the results of
`fetch(…).then(…)`, of `.catch(…)` and of `resp.text().then(…)`. -/
inductive Name where
  | user (n : Nat)
  | response (request : Nat)
  | failure (request : Nat)
  | body (request : Nat)
  deriving DecidableEq

/-- The three callbacks; the second one closes over `resp`. -/
inductive Callback (V : Type) where
  | onResponse (request : Nat)
  | onBody (request : Nat) (resp : Value V)
  | onError (request : Nat)

def Callback.request : Callback V → Nat
  | .onResponse r => r
  | .onBody r _ => r
  | .onError r => r

inductive Event (V : Type) where
  | invoked (request : Nat) (args : List (Value V))
  | cancelled (request : Nat)
  deriving DecidableEq

/-- What runs of a request: nothing, one of the last two callbacks up to its call of the
user's callback, or that call. -/
inductive Stage (V : Type) where
  | idle
  | preparing (k : Promises.Invocation Name (Value V) (Callback V))
  | calling (derived : Name)

/-- `callable` is `typeof callback === 'function'`. `threw`: the user's callback has thrown
when it was called with a response. -/
structure Request (V : Type) where
  callable : Bool
  aborted : Bool
  stage : Stage V
  threw : Bool

structure State (V : Type) where
  requests : Nat → Option (Request V)
  heap : Promises.Heap Name (Value V) (Callback V)

def init : State V := ⟨fun _ => none, .empty⟩

def State.withRequest (s : State V) (r : Nat) (q : Request V) : State V :=
  { s with requests := fun i => if i = r then some q else s.requests i }

/-- The answers this code needs besides: `text` is `resp.text()`, which returns a native
promise; `object` makes an object with the given fields. -/
structure Answers (V : Type) extends Engine V where
  text : Value V → Except (Value V) Nat
  parse : Value V → Except (Value V) (Value V)
  object : List (String × Value V) → Value V
  newError : Value V → Except (Value V) (Value V)

/-- `(null, response, parsedBody)`. -/
def successArgs (engine : Answers V) (resp bodyText : Value V) :
    Except (Value V) (List (Value V)) := do
  let parsedBody :=
    match engine.parse bodyText with
    | .ok parsed => parsed
    | .error _ => bodyText
  let status ← engine.get 0 resp "status"
  let statusText ← engine.get 1 resp "statusText"
  let headers ← engine.get 2 resp "headers"
  let response := engine.object
    [("statusCode", status),
      ("statusMessage", if engine.truthy statusText then statusText else .string ""),
      ("headers", if engine.truthy headers then headers else engine.object []),
      ("body", parsedBody)]
  return [.null, response, parsedBody]

/-- `(new Error(errMsg), null, null)`. -/
def failureArgs (engine : Answers V) (err : Value V) : Except (Value V) (List (Value V)) := do
  let errMsg ← errMsg engine.toEngine err
  let error ← engine.newError errMsg
  return [error, .null, .null]

/-- `fetch(…).then(onResponse).catch(onError)`, where `fetch` has returned `user n`. -/
def awaitFetch (h : Promises.Heap Name (Value V) (Callback V)) (n r : Nat) :
    Promises.Heap Name (Value V) (Callback V) :=
  Promises.andThen
    (Promises.andThen h (.user n) (some (.onResponse r)) none (.response r))
    (.response r) none (some (.onError r)) (.failure r)

def request (s : State V) (r n : Nat) (callable : Bool) : Option (State V × List (Event V)) :=
  match s.requests r with
  | some _ => none
  | none =>
    some ({ s.withRequest r ⟨callable, false, .idle, false⟩ with
            heap := awaitFetch s.heap n r }, [])

/-- The function that `lx.request` has returned. -/
def cancel (s : State V) (r : Nat) : Option (State V × List (Event V)) :=
  match s.requests r with
  | none => none
  | some q => some (s.withRequest r { q with aborted := true }, [.cancelled r])

/-- A promise that is none of the chain's settles. -/
def settle (s : State V) (n : Nat) (o : Promises.Outcome (Value V)) :
    Option (State V × List (Event V)) :=
  match s.heap.state (.user n) with
  | some _ => none
  | none => some ({ s with heap := Promises.settle s.heap (.user n) o }, [])

/-- The callback whose result settles `derived` ends. -/
def finish (s : State V) (engine : Answers V) (derived : Name)
    (result : Promises.Result Name (Value V)) : State V :=
  { s with heap := Promises.finish s.heap engine.typeError derived result }

/-- The response callback where the request is not aborted: `return resp.text().then(onBody)`. -/
def readBody (s : State V) (engine : Answers V) (r : Nat) (derived : Name) (resp : Value V) :
    State V :=
  match engine.text resp with
  | .error err => finish s engine derived (.throws err)
  | .ok t =>
    finish { s with
             heap := Promises.andThen s.heap (.user t) (some (.onBody r resp)) none (.body r) }
      engine derived (.promise (.body r))

def runJob (s : State V) (engine : Answers V) : Option (State V × List (Event V)) :=
  match Promises.runJob s.heap with
  | none => none
  | some (h, none) => some ({ s with heap := h }, [])
  | some (h, some k) =>
    let s' := { s with heap := h }
    match s.requests k.handler.request with
    | none => none
    | some q =>
      if q.aborted then some (finish s' engine k.derived (.value .undefined), [])
      else
        match k.handler with
        | .onResponse r => some (readBody s' engine r k.derived k.argument, [])
        | .onBody r _ => some (s'.withRequest r { q with stage := .preparing k }, [])
        | .onError r => some (s'.withRequest r { q with stage := .preparing k }, [])

/-- The callback ends and its request runs nothing. -/
def ends (s : State V) (engine : Answers V) (r : Nat) (q : Request V) (derived : Name)
    (result : Promises.Result Name (Value V)) : State V × List (Event V) :=
  ((finish s engine derived result).withRequest r { q with stage := .idle }, [])

/-- `callback(…)`, where `callback` is a function. -/
def invoke (s : State V) (engine : Answers V) (r : Nat) (q : Request V) (derived : Name)
    (args : Except (Value V) (List (Value V))) : State V × List (Event V) :=
  match args with
  | .error err => ends s engine r q derived (.throws err)
  | .ok args => (s.withRequest r { q with stage := .calling derived }, [.invoked r args])

/-- A callback goes on to the call of the user's callback. The body callback makes its
arguments before it tests whether there is a callback, the error callback after. -/
def prepared (s : State V) (engine : Answers V) (r : Nat) : Option (State V × List (Event V)) :=
  match s.requests r with
  | none => none
  | some q =>
    match q.stage with
    | .preparing k =>
      match k.handler with
      | .onResponse _ => none
      | .onBody _ resp =>
        let args := successArgs engine resp k.argument
        if q.callable then some (invoke s engine r q k.derived args)
        else
          match args with
          | .error err => some (ends s engine r q k.derived (.throws err))
          | .ok _ => some (ends s engine r q k.derived (.value .undefined))
      | .onError _ =>
        if q.callable then some (invoke s engine r q k.derived (failureArgs engine k.argument))
        else some (ends s engine r q k.derived (.value .undefined))
    | _ => none

def callbackReturns (s : State V) (engine : Answers V) (r : Nat) :
    Option (State V × List (Event V)) :=
  match s.requests r with
  | none => none
  | some q =>
    match q.stage with
    | .calling derived => some (ends s engine r q derived (.value .undefined))
    | _ => none

def callbackThrows (s : State V) (engine : Answers V) (r : Nat) (err : Value V) :
    Option (State V × List (Event V)) :=
  match s.requests r with
  | none => none
  | some q =>
    match q.stage with
    | .calling derived =>
      some (ends s engine r { q with threw := q.threw || decide (derived = .body r) } derived
        (.throws err))
    | _ => none

inductive Action (V : Type) where
  | request (r n : Nat) (callable : Bool)
  | cancel (r : Nat)
  | settle (n : Nat) (o : Promises.Outcome (Value V))
  | runJob (engine : Answers V)
  | prepared (engine : Answers V) (r : Nat)
  | callbackReturns (engine : Answers V) (r : Nat)
  | callbackThrows (engine : Answers V) (r : Nat) (err : Value V)

def step (s : State V) : Action V → Option (State V × List (Event V))
  | .request r n callable => request s r n callable
  | .cancel r => cancel s r
  | .settle n o => settle s n o
  | .runJob engine => runJob s engine
  | .prepared engine r => prepared s engine r
  | .callbackReturns engine r => callbackReturns s engine r
  | .callbackThrows engine r err => callbackThrows s engine r err

/-- The calls of a request's callback. -/
def invocations (r : Nat) (log : List (Event V)) : Nat :=
  log.countP fun
    | .invoked i _ => i = r
    | .cancelled _ => false

/-- The fetch chain of the request has settled. -/
def Settled (s : State V) (r : Nat) : Prop := s.heap.state (.failure r) ≠ none

/-- The user's callback is called at most once, once where the chain settles without cancel
having been called, and never after that. -/
structure CalledOnce (s : State V) (log : List (Event V)) : Prop where
  at_most : ∀ r, invocations r log ≤ 1
  exactly : ∀ r q, s.requests r = some q → q.callable = true → Settled s r →
    .cancelled r ∉ log → invocations r log = 1
  not_after : Guarded (fun pre e => ∀ r args, e = .invoked r args → .cancelled r ∉ pre) log

/-- The steps under which this holds: when the error callback starts on a request that is
not aborted, the user's callback has not thrown before; the error it then reports has a
message from which an error object can be made; and no code that runs between a callback's
test of `aborted` and its call of the user's callback calls cancel. -/
def StepOk (s : State V) : Action V → Prop
  | .cancel r => ∀ q, s.requests r = some q → ∀ k, q.stage ≠ .preparing k
  | .runJob _ => ∀ h k, Promises.runJob s.heap = some (h, some k) →
    ∀ r q, k.handler = .onError r → s.requests r = some q → q.aborted = true ∨ q.threw = false
  | .prepared engine r => ∀ q k i, s.requests r = some q → q.stage = .preparing k →
    k.handler = .onError i → q.callable = true → ∃ args, failureArgs engine k.argument = .ok args
  | _ => True

end Requests
