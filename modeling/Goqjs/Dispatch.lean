import Goqjs.Runs
import Goqjs.JsValues
import Goqjs.Promises

/-!
# lx.on and lx._dispatch

`_dispatch` calls the registered handler and replies through `__goqjs_send`:
at once, or from the callbacks it hangs on the handler's result. The actions
are what Go, the user's handlers and the job queue may do next: a handler
returns or throws, a thenable that is no native promise calls the callbacks it
was given, a promise of the user settles, the next job runs. Several calls are
outstanding at once and their actions come in any order.
-/

namespace Dispatch

open Runs Js

variable {V : Type}

/-- The promises: the user's, and the results of `result.then(…)` and `.catch(…)` of a call. -/
inductive Name where
  | user (n : Nat)
  | result (call : Nat)
  | caught (call : Nat)
  deriving DecidableEq

/-- The two callbacks with the `requestId` they close over. -/
inductive Callback (V : Type) where
  | onResult (call : Nat) (requestId : Value V)
  | onError (call : Nat) (requestId : Value V)

/-- `message` is the object given to `JSON.stringify`. -/
inductive Event (V : Type) where
  | sent (call : Nat) (name : String) (message : List (String × Value V)) (text : String)
  | handlerCalled (call : Nat) (handler data : Value V)
  | threw (call : Nat) (err : Value V)
  deriving DecidableEq

/-- Where a call of `_dispatch` is: in the handler, in `then` or `catch` of a thenable that is
no native promise, or returned. -/
inductive Phase where
  | handling
  | thenCalled
  | catchCalled
  | returned
  deriving DecidableEq

/-- Where the outcome of the handler comes from. -/
inductive Source where
  | synchronous
  | native (n : Nat)
  | foreign
  deriving DecidableEq

/-- `thenHeld` and `catchHeld`: the thenable has the callback. `given`: it has given its
outcome, `refused`: the then callback threw on a value it gave. -/
structure Call (V : Type) where
  requestId : Value V
  phase : Phase
  source : Source
  thenHeld : Bool
  catchHeld : Bool
  given : Bool
  refused : Bool

structure State (V : Type) where
  eventHandlers : Value V → Value V
  calls : Nat → Option (Call V)
  heap : Promises.Heap Name (Value V) (Callback V)

def init : State V := ⟨fun _ => .undefined, fun _ => none, .empty⟩

def State.withCall (s : State V) (call : Nat) (c : Call V) : State V :=
  { s with calls := fun i => if i = call then some c else s.calls i }

def resultMessage (requestId value : Value V) : List (String × Value V) :=
  [("id", requestId), ("result", value)]

def errorMessage (requestId error : Value V) : List (String × Value V) :=
  [("id", requestId), ("error", error)]

/-- `__goqjs_send(name, JSON.stringify(message))`. -/
def send (engine : Engine V) (call : Nat) (name : String) (message : List (String × Value V)) :
    Except (Value V) (Event V) := do
  let text ← engine.stringify message
  return .sent call name message text

/-- The then callback, and the reply to a synchronous result. -/
def sendResult (engine : Engine V) (call : Nat) (requestId value : Value V) :
    Except (Value V) (Event V) :=
  send engine call "dispatchResult" (resultMessage requestId value)

/-- The catch callback, and the body of the outer `catch`. -/
def sendError (engine : Engine V) (call : Nat) (requestId err : Value V) :
    Except (Value V) (Event V) := do
  let errMsg ← errMsg engine err
  send engine call "dispatchError" (errorMessage requestId errMsg)

def sendNoHandler (engine : Engine V) (call : Nat) (requestId eventName : Value V) :
    Except (Value V) (Event V) := do
  let error ← engine.concat "No handler registered for event: " eventName
  send engine call "dispatchError" (errorMessage requestId (.string error))

def Callback.run (engine : Engine V) : Callback V → Value V → Except (Value V) (Event V)
  | .onResult call requestId, value => sendResult engine call requestId value
  | .onError call requestId, err => sendError engine call requestId err

/-- What the `try` block does with the handler's result, up to the first call it makes. -/
inductive Body (V : Type) where
  | replied (reply : Event V)
  | awaits (n : Nat)
  | callsThen

/-- The `try` block after `handler(data)` has returned `result`. The property `then` is read
twice, to test it and to call it. -/
def tryBody (engine : Engine V) (call : Nat) (requestId result : Value V) :
    Except (Value V) (Body V) :=
  match result with
  | .promise n => .ok (.awaits n)
  | result =>
    if engine.truthy result then do
      let tested ← engine.get 0 result "then"
      if engine.callable tested then
        let called ← engine.get 1 result "then"
        if engine.callable called then return .callsThen
        else throw engine.typeError
      else return .replied (← sendResult engine call requestId result)
    else do
      return .replied (← sendResult engine call requestId result)

/-- `result.then(onResult).catch(onError)` on a native promise. -/
def awaitPromise (h : Promises.Heap Name (Value V) (Callback V)) (n call : Nat)
    (requestId : Value V) : Promises.Heap Name (Value V) (Callback V) :=
  Promises.andThen
    (Promises.andThen h (.user n) (some (.onResult call requestId)) none (.result call))
    (.result call) none (some (.onError call requestId)) (.caught call)

/-- The outer `catch`. What it throws itself leaves `_dispatch`. -/
def outerCatch (s : State V) (engine : Engine V) (call : Nat) (c : Call V) (err : Value V) :
    State V × List (Event V) :=
  let s' := s.withCall call { c with phase := .returned, given := true }
  match sendError engine call c.requestId err with
  | .ok reply => (s', [reply])
  | .error thrown => (s', [.threw call thrown])

def on (s : State V) [DecidableEq V] (eventName handler : Value V) : State V × List (Event V) :=
  ({ s with
     eventHandlers := fun name => if name = eventName then handler else s.eventHandlers name },
    [])

/-- `_dispatch` up to the call of the handler. -/
def dispatch (s : State V) (engine : Engine V) (call : Nat) (requestId eventName data : Value V) :
    Option (State V × List (Event V)) :=
  match s.calls call with
  | some _ => none
  | none =>
    let handler := s.eventHandlers eventName
    if engine.callable handler then
      some (s.withCall call ⟨requestId, .handling, .synchronous, false, false, false, false⟩,
        [.handlerCalled call handler data])
    else
      let s' := s.withCall call ⟨requestId, .returned, .synchronous, false, false, false, false⟩
      match sendNoHandler engine call requestId eventName with
      | .ok reply => some (s', [reply])
      | .error thrown => some (s', [.threw call thrown])

def handlerReturns (s : State V) (engine : Engine V) (call : Nat) (result : Value V) :
    Option (State V × List (Event V)) :=
  match s.calls call with
  | none => none
  | some c =>
    if c.phase = .handling then
      match tryBody engine call c.requestId result with
      | .ok (.replied reply) =>
        some (s.withCall call { c with phase := .returned }, [reply])
      | .ok (.awaits n) =>
        some ({ s.withCall call { c with phase := .returned, source := .native n } with
                heap := awaitPromise s.heap n call c.requestId }, [])
      | .ok .callsThen =>
        some (s.withCall call
          { c with phase := .thenCalled, source := .foreign, thenHeld := true }, [])
      | .error err => some (outerCatch s engine call c err)
    else none

def handlerThrows (s : State V) (engine : Engine V) (call : Nat) (err : Value V) :
    Option (State V × List (Event V)) :=
  match s.calls call with
  | none => none
  | some c =>
    if c.phase = .handling then some (outerCatch s engine call c err) else none

/-- `x.catch(onError)` up to the call of `catch`. -/
def callCatch (engine : Engine V) (x : Value V) : Except (Value V) Unit := do
  let called ← engine.get 0 x "catch"
  if engine.callable called then return ()
  else throw engine.typeError

/-- The thenable's `then` returns `x`. -/
def thenReturns (s : State V) (engine : Engine V) (call : Nat) (x : Value V) :
    Option (State V × List (Event V)) :=
  match s.calls call with
  | none => none
  | some c =>
    if c.phase = .thenCalled then
      match callCatch engine x with
      | .ok () => some (s.withCall call { c with phase := .catchCalled, catchHeld := true }, [])
      | .error err => some (outerCatch s engine call c err)
    else none

/-- The thenable's `then`, or the `catch` of what it returned, throws. -/
def thenableThrows (s : State V) (engine : Engine V) (call : Nat) (err : Value V) :
    Option (State V × List (Event V)) :=
  match s.calls call with
  | none => none
  | some c =>
    if c.phase = .thenCalled ∨ c.phase = .catchCalled then some (outerCatch s engine call c err)
    else none

def catchReturns (s : State V) (call : Nat) : Option (State V × List (Event V)) :=
  match s.calls call with
  | none => none
  | some c =>
    if c.phase = .catchCalled then some (s.withCall call { c with phase := .returned }, [])
    else none

/-- The thenable calls the then callback; an error goes back to it. -/
def thenCallback (s : State V) (engine : Engine V) (call : Nat) (value : Value V) :
    Option (State V × List (Event V)) :=
  match s.calls call with
  | none => none
  | some c =>
    if c.thenHeld then
      match sendResult engine call c.requestId value with
      | .ok reply => some (s.withCall call { c with given := true }, [reply])
      | .error _ => some (s.withCall call { c with refused := true }, [])
    else none

/-- The thenable calls the catch callback. -/
def catchCallback (s : State V) (engine : Engine V) (call : Nat) (err : Value V) :
    Option (State V × List (Event V)) :=
  match s.calls call with
  | none => none
  | some c =>
    if c.catchHeld then
      match sendError engine call c.requestId err with
      | .ok reply => some (s.withCall call { c with given := true }, [reply])
      | .error _ => some (s.withCall call { c with given := true }, [])
    else none

/-- The thenable keeps the callbacks no longer. -/
def release (s : State V) (call : Nat) : Option (State V × List (Event V)) :=
  match s.calls call with
  | none => none
  | some c =>
    if c.phase = .returned then
      some (s.withCall call { c with thenHeld := false, catchHeld := false }, [])
    else none

/-- The user's code settles a promise of its own. -/
def settle (s : State V) (n : Nat) (o : Promises.Outcome (Value V)) :
    Option (State V × List (Event V)) :=
  match s.heap.state (.user n) with
  | some _ => none
  | none => some ({ s with heap := Promises.settle s.heap (.user n) o }, [])

def runJob (s : State V) (engine : Engine V) : Option (State V × List (Event V)) :=
  match Promises.runJob s.heap with
  | none => none
  | some (h, none) => some ({ s with heap := h }, [])
  | some (h, some k) =>
    match k.handler.run engine k.argument with
    | .ok reply =>
      some ({ s with
              heap := Promises.finish h engine.typeError k.derived (.value .undefined) },
        [reply])
    | .error err =>
      some ({ s with heap := Promises.finish h engine.typeError k.derived (.throws err) }, [])

inductive Action (V : Type) where
  | on (eventName handler : Value V)
  | dispatch (engine : Engine V) (call : Nat) (requestId eventName data : Value V)
  | handlerReturns (engine : Engine V) (call : Nat) (result : Value V)
  | handlerThrows (engine : Engine V) (call : Nat) (err : Value V)
  | thenReturns (engine : Engine V) (call : Nat) (x : Value V)
  | thenableThrows (engine : Engine V) (call : Nat) (err : Value V)
  | catchReturns (call : Nat)
  | thenCallback (engine : Engine V) (call : Nat) (value : Value V)
  | catchCallback (engine : Engine V) (call : Nat) (err : Value V)
  | release (call : Nat)
  | settle (n : Nat) (o : Promises.Outcome (Value V))
  | runJob (engine : Engine V)

variable [DecidableEq V]

def step (s : State V) : Action V → Option (State V × List (Event V))
  | .on eventName handler => some (on s eventName handler)
  | .dispatch engine call requestId eventName data =>
    dispatch s engine call requestId eventName data
  | .handlerReturns engine call result => handlerReturns s engine call result
  | .handlerThrows engine call err => handlerThrows s engine call err
  | .thenReturns engine call x => thenReturns s engine call x
  | .thenableThrows engine call err => thenableThrows s engine call err
  | .catchReturns call => catchReturns s call
  | .thenCallback engine call value => thenCallback s engine call value
  | .catchCallback engine call err => catchCallback s engine call err
  | .release call => release s call
  | .settle n o => settle s n o
  | .runJob engine => runJob s engine

/-- The replies of one call. -/
def replies (call : Nat) (log : List (Event V)) : List (Event V) :=
  log.filter fun
    | .sent i _ _ _ => i = call
    | _ => false

/-- The handler's outcome is known: it was settled within the call; or the native promise it
returned has settled and no job of the call is due; or the thenable it returned has given its
outcome, or has let go of the callbacks after giving a value that was refused. -/
def Known (s : State V) (call : Nat) (c : Call V) : Prop :=
  match c.source with
  | .synchronous => c.phase = .returned
  | .native n => s.heap.state (.user n) ≠ none ∧
      ∀ j ∈ s.heap.jobs, j.target ≠ .result call ∧ j.target ≠ .caught call
  | .foreign => c.given = true ∨ (c.refused = true ∧ c.thenHeld = false)

/-- A reply of the call to its request, under one of the two names. -/
def IsReplyTo (call : Nat) (requestId : Value V) (e : Event V) : Prop :=
  ∃ name message text, e = .sent call name message text ∧
    (name = "dispatchResult" ∨ name = "dispatchError") ∧ message.lookup "id" = some requestId

/-- Every call has at most one reply, and one once the outcome is known; its replies carry
its `requestId`. -/
def RepliedOnce (s : State V) (log : List (Event V)) : Prop :=
  ∀ call c, s.calls call = some c →
    (replies call log).length ≤ 1 ∧ (Known s call c → (replies call log).length = 1) ∧
      ∀ e ∈ replies call log, IsReplyTo call c.requestId e

/-- The error has a message, and the reply with it can be serialised. -/
def Renders (engine : Engine V) (requestId err : Value V) : Prop :=
  ∃ message text, errMsg engine err = .ok message ∧
    engine.stringify (errorMessage requestId message) = .ok text

/-- The steps that keep to one reply. An error that comes to be reported can be rendered; and
a thenable that is no native promise gives its outcome once: by a value the then callback
takes, by the catch callback or by throwing; a value the then callback refuses is followed by
an error before the thenable lets go of the callbacks. -/
def StepOk (s : State V) : Action V → Prop
  | .dispatch engine _ requestId eventName _ =>
    engine.callable (s.eventHandlers eventName) = false →
      ∃ error text, engine.concat "No handler registered for event: " eventName = .ok error ∧
        engine.stringify (errorMessage requestId (.string error)) = .ok text
  | .handlerReturns engine call result => ∀ c, s.calls call = some c →
    ∀ err, tryBody engine call c.requestId result = .error err → Renders engine c.requestId err
  | .handlerThrows engine call err => ∀ c, s.calls call = some c →
    Renders engine c.requestId err
  | .thenReturns engine call x => ∀ c, s.calls call = some c →
    ∀ err, callCatch engine x = .error err → c.given = false ∧ Renders engine c.requestId err
  | .thenableThrows engine call err => ∀ c, s.calls call = some c →
    c.given = false ∧ Renders engine c.requestId err
  | .thenCallback engine call value => ∀ c, s.calls call = some c → c.given = true →
    ∀ text, engine.stringify (resultMessage c.requestId value) ≠ .ok text
  | .catchCallback engine call err => ∀ c, s.calls call = some c →
    c.given = false ∧ Renders engine c.requestId err
  | .release call => ∀ c, s.calls call = some c → c.refused = true → c.given = true
  | .runJob engine => ∀ h k, Promises.runJob s.heap = some (h, some k) →
    ∀ call requestId, k.handler = .onError call requestId →
      Renders engine requestId k.argument
  | _ => True

end Dispatch
