import Goqjs.Functions
import Goqjs.FetchRequest

/-!
# Function objects and their Go functions

The engine frees a function object when it has no reference left, or in a garbage collection when
only garbage refers to it. Nothing of this reaches Go: `unregisterFunction` has one caller, `Close`.
-/

namespace Lifetimes

open Runs Qjs Functions

/-- What has become of a function object. Garbage is out of reach, but part of a cycle. -/
inductive Mark where
  | referenced
  | garbage
  | freed
  deriving DecidableEq

/-- `made` are the ids of the function objects in the order of `objects`; no step reads them. -/
structure Heap (F : Type) where
  go : State F
  made : List Int
  mark : Nat → Mark

def init (F : Type) : Heap F := ⟨Functions.init F, [], fun _ => .referenced⟩

inductive Op (F : Type) where
  | go (a : Action F)
  | drop (r : RuntimeId) (o : Nat)
  | release (r : RuntimeId) (o : Nat)
  | runGC (r : RuntimeId)

variable {F : Type}

/-- The id of the function object that the step creates. -/
def madeBy (s : State F) : Action F → List Int
  | .next r =>
    match s.pc r with
    | .create (some _) id _ => [id]
    | _ => []
  | _ => []

/-- JavaScript calls what it can reach. -/
def Heap.reaches (h : Heap F) : Action F → Bool
  | .call _ o _ => h.mark o == .referenced
  | _ => true

/-- The object is one of the runtime's, which is in none of its operations. -/
def Heap.canFree (h : Heap F) (r : RuntimeId) (o : Nat) : Bool :=
  h.go.isIdle r &&
    match h.go.objects[o]? with
    | some obj => obj.rt == r
    | none => false

def Heap.setMark (h : Heap F) (o : Nat) (m : Mark) : Heap F :=
  { h with mark := Function.update h.mark o m }

/-- The marks behind a garbage collection. -/
def Heap.swept (h : Heap F) (r : RuntimeId) (o : Nat) : Mark :=
  if h.canFree r o && h.mark o == .garbage then .freed else h.mark o

def step (h : Heap F) : Op F → Option (Heap F × List (Event F))
  | .go a =>
    if h.reaches a then
      match Functions.step h.go a with
      | none => none
      | some (t, ev) => some ({ h with go := t, made := h.made ++ madeBy h.go a }, ev)
    else none
  -- the last reference from outside of a cycle goes
  | .drop r o =>
    if h.canFree r o && h.mark o == .referenced then some (h.setMark o .garbage, []) else none
  -- the count of references comes to zero
  | .release r o =>
    if h.canFree r o && h.mark o == .referenced then some (h.setMark o .freed, []) else none
  | .runGC r =>
    if h.go.isIdle r then some ({ h with mark := h.swept r }, []) else none

/-- The closures of `buildResponseObject`, with what they capture. -/
inductive ResponseFunction where
  | get (headerMap : Polyfill.GoMap)
  | has (headerMap : Polyfill.GoMap)
  | text (bodyStr : GoString)
  | json (bodyStr : GoString)
  | arrayBuffer (bodyBytes : GoString)

/-- The calls of `SetFunction` in `buildResponseObject`. -/
def buildResponseObject (r : RuntimeId) (c : ContextId) (headerMap : Polyfill.GoMap)
    (respBody : GoString) : List (Op ResponseFunction) :=
  [.get headerMap, .has headerMap, .text respBody, .json respBody, .arrayBuffer respBody].flatMap
    fun fn => [.go (.setFunction r (some c) fn), .go (.next r), .go (.next r), .go (.next r)]

/-- Through the context Go holds the id, in its set or in the registry. -/
def Holds (s : State F) (log : List (Event F)) (c : ContextId) (id : Int) : Prop :=
  (∃ x fns, s.contexts[c]? = some x ∧ x.fns = some fns ∧ id ∈ fns) ∨
    ∃ r fn, .registered r (some c) id fn ∈ log ∧ s.fnRegistry id ≠ none

/-- The function object with this id has not been freed. -/
def Heap.Alive (h : Heap F) (id : Int) : Prop := ∃ o, h.made[o]? = some id ∧ h.mark o ≠ .freed

def OnlyAlive (h : Heap F) (log : List (Event F)) (c : ContextId) : Prop :=
  ∀ id, Holds h.go log c id → h.Alive id

/-- Behind a collection an open context holds no id of a function object that has been freed. -/
def ReleasedByGC (F : Type) : Prop := ∀ (ops : List (Op F)) r h log,
  exec step (init F) (ops ++ [.runGC r]) = some (h, log) → ∀ (c : Nat) x,
    h.go.contexts[c]? = some x → x.rt = r → x.ctx ≠ none → OnlyAlive h log c

end Lifetimes
