import Mathlib.Logic.Function.Basic
import Goqjs.ReferenceGraph

/-!
# Reference counts and the cycle collector of the engine

Everything that the engine counts references to and that can refer to other such things
begins with a header, and every header is in one of three lists. Frees go on while others
are under way, so the C call stack is part of the state: a frame holds the references it
still has to give up. A condition that the code asserts and that does not hold, a use of freed
memory and a count that leaves the range of its `int` are `none`.

`children` are the references that `mark_children` visits, in the order in which they are
freed; `handles` are those held from outside, by C frames, queued jobs and the Go side. Weak
references are left out.
-/

namespace Gc

abbrev Address := Nat

/-- `JSGCObjectTypeEnum`. -/
inductive ObjType where
  | jsObject
  | functionBytecode
  | shape
  | varRef
  | asyncFunction
  | jsContext
  deriving DecidableEq

/-- The types that JS values point to; they wait in lists to be freed. -/
def ObjType.isValue : ObjType → Bool
  | .jsObject | .functionBytecode => true
  | _ => false

/-- What a header of one type may hold a reference to, by the types of its fields. -/
def ObjType.mayRef : ObjType → ObjType → Bool
  | .jsObject, _ => true
  | .functionBytecode, t => t.isValue || t == .jsContext
  | .shape, t => t == .jsObject
  | .varRef, t | .asyncFunction, t => t.isValue
  | .jsContext, t => t.isValue || t == .shape || t == .varRef

/-- `JSGCObjectHeader`, with the references of the object behind it. `free_mark` is set when
the fields are given up. -/
structure Header where
  gcObjType : ObjType
  refCount : Int
  mark : Bool
  freeMark : Bool
  children : List Address
  deriving DecidableEq

/-- The greatest `int`. -/
def intMax : Int := 2147483647

namespace Header

variable (h : Header)

/-- `ref_count++`. -/
def incref : Option Header :=
  if h.refCount < intMax then some { h with refCount := h.refCount + 1 } else none

/-- `ref_count--`. -/
def decref : Option Header :=
  if -intMax ≤ h.refCount then some { h with refCount := h.refCount - 1 } else none

theorem incref_of_lt (small : h.refCount < intMax) :
    h.incref = some { h with refCount := h.refCount + 1 } := if_pos small

theorem decref_of_pos (pos : 0 < h.refCount) :
    h.decref = some { h with refCount := h.refCount - 1 } := by
  apply if_pos
  have : 0 < intMax := by decide
  omega

end Header

/-- `JSGCPhaseEnum`. -/
inductive Phase where
  | none
  | decref
  | removeCycles
  deriving DecidableEq

/-- A C call that is not finished. -/
inductive Frame where
  /-- a reference that the caller has still to give up -/
  | freeRef (c : Address)
  /-- the end of `free_object` and its like, once the fields are gone -/
  | finish (p : Address)
  | freeZeroRefcount
  | gcFreeCycles
  deriving DecidableEq

structure State where
  headers : Address → Option Header
  gcObjList : List Address
  gcZeroRefCountList : List Address
  tmpObjList : List Address
  gcPhase : Phase
  handles : List Address
  frames : List Frame

def childrenIn (headers : Address → Option Header) (p : Address) : List Address :=
  match headers p with
  | some h => h.children
  | none => []

namespace State

def children (s : State) : Address → List Address := childrenIn s.headers

def allocated (s : State) : List Address :=
  s.gcObjList ++ s.gcZeroRefCountList ++ s.tmpObjList

def put (s : State) (p : Address) (h : Header) : State :=
  { s with headers := Function.update s.headers p (some h) }

@[simp] theorem put_self (s : State) (p : Address) (h : Header) :
    (s.put p h).headers p = some h := Function.update_self ..

theorem put_ne {p q : Address} (ne : q ≠ p) (s : State) (h : Header) :
    (s.put p h).headers q = s.headers q := Function.update_of_ne ne ..

/-- `list_del`: a header does not know which list it is in. -/
def unlink (s : State) (p : Address) : State :=
  { s with
    gcObjList := s.gcObjList.erase p
    gcZeroRefCountList := s.gcZeroRefCountList.erase p
    tmpObjList := s.tmpObjList.erase p }

def push (s : State) (fs : List Frame) : State := { s with frames := fs ++ s.frames }

/-- The body that `free_object`, `free_function_bytecode`, `js_free_shape0`, `free_var_ref`,
`js_async_function_free0` and `JS_FreeContext` share: the fields, then the header. -/
def release (s : State) (p : Address) (h : Header) : State :=
  (s.put p { h with freeMark := true, children := [] }).push
    (h.children.map .freeRef ++ [.finish p])

def freeGcObject (s : State) (p : Address) : Option State :=
  match s.headers p with
  | some h => if h.gcObjType.isValue then some (s.release p h) else none
  | none => none

/-- `js_free_value_rt` of an object or of the bytecode of a function. -/
def jsFreeValueRt (s : State) (p : Address) : State :=
  match s.gcPhase with
  | .removeCycles => s
  | .decref => { s.unlink p with gcZeroRefCountList := p :: (s.unlink p).gcZeroRefCountList }
  | .none =>
    { s.unlink p with
      gcZeroRefCountList := p :: (s.unlink p).gcZeroRefCountList
      gcPhase := .decref
      frames := .freeZeroRefcount :: s.frames }

/-- `JS_FreeValueRT`. -/
def freeValueRT (s : State) (p : Address) (h : Header) : Option State :=
  h.decref.bind fun h =>
    if h.refCount ≤ 0 then some ((s.put p h).jsFreeValueRt p) else some (s.put p h)

def jsFreeShape (s : State) (p : Address) (h : Header) : Option State :=
  h.decref.bind fun h =>
    if h.refCount ≤ 0 then
      -- `js_free_shape0` asserts it
      if h.refCount = 0 then some (s.release p h) else none
    else some (s.put p h)

def freeVarRef (s : State) (p : Address) (h : Header) : Option State :=
  if 0 < h.refCount then
    h.decref.bind fun h =>
      if h.refCount = 0 then some (s.release p h) else some (s.put p h)
  else none

def jsAsyncFunctionFree (s : State) (p : Address) (h : Header) : Option State :=
  h.decref.bind fun h =>
    if h.refCount = 0 then some (s.release p h) else some (s.put p h)

/-- `JS_FreeContext`. -/
def freeContext (s : State) (p : Address) (h : Header) : Option State :=
  h.decref.bind fun h =>
    if 0 < h.refCount then some (s.put p h)
    else if h.refCount = 0 then some (s.release p h) else none

/-- The free function for the type of what is referred to. -/
def freeRef (s : State) (p : Address) : Option State :=
  match s.headers p with
  | none => none
  | some h =>
    match h.gcObjType with
    | .jsObject | .functionBytecode => s.freeValueRT p h
    | .shape => s.jsFreeShape p h
    | .varRef => s.freeVarRef p h
    | .asyncFunction => s.jsAsyncFunctionFree p h
    | .jsContext => s.freeContext p h

/-- `remove_gc_object` and `js_free_rt`. A value that is freed with a cycle stays allocated
as long as it is referred to. -/
def finish (s : State) (p : Address) : Option State :=
  match s.headers p with
  | none => none
  | some h =>
    if h.gcObjType.isValue ∧ s.gcPhase = .removeCycles ∧ h.refCount ≠ 0 then
      some { s.unlink p with gcZeroRefCountList := (s.unlink p).gcZeroRefCountList ++ [p] }
    else
      some { s.unlink p with headers := Function.update s.headers p none }

/-- One turn of the loop of `free_zero_refcount`. -/
def freeZeroRefcount (s : State) (k : List Frame) : Option State :=
  match s.gcZeroRefCountList with
  | [] => some { s with gcPhase := .none, frames := k }
  | p :: _ =>
    match s.headers p with
    | some h => if h.refCount = 0 then s.freeGcObject p else none
    | none => none

def isValueAt (s : State) (p : Address) : Bool :=
  match s.headers p with
  | some h => h.gcObjType.isValue
  | none => false

/-- One turn of the loop of `gc_free_cycles`, and what comes behind the loop. -/
def gcFreeCycles (s : State) (k : List Frame) : Option State :=
  match s.tmpObjList with
  | [] =>
    if s.gcZeroRefCountList.all s.isValueAt then
      some { s with
        headers := fun p => if p ∈ s.gcZeroRefCountList then none else s.headers p
        gcZeroRefCountList := []
        gcPhase := .none
        frames := k }
    else none
  | p :: rest =>
    match s.headers p with
    | some h =>
      if h.gcObjType.isValue then s.freeGcObject p
      else some { s with
        tmpObjList := rest
        gcZeroRefCountList := s.gcZeroRefCountList ++ [p] }
    | none => none

def step (s : State) : Option State :=
  match s.frames with
  | [] => some s
  | .freeRef c :: k => { s with frames := k }.freeRef c
  | .finish p :: k => { s with frames := k }.finish p
  | .freeZeroRefcount :: k => s.freeZeroRefcount k
  | .gcFreeCycles :: k => s.gcFreeCycles k

def run : Nat → State → Option State
  | 0, s => if s.frames = [] then some s else none
  | n + 1, s => if s.frames = [] then some s else s.step.bind (run n)

/-- A header goes to the end of `tmp_obj_list`. -/
def toTmp (s : State) (p : Address) : State :=
  { s.unlink p with tmpObjList := (s.unlink p).tmpObjList ++ [p] }

def gcDecrefChild (s : State) (c : Address) : Option State :=
  match s.headers c with
  | none => none
  | some h =>
    if 0 < h.refCount then
      h.decref.bind fun h =>
        if h.refCount = 0 ∧ h.mark = true then some ((s.put c h).toTmp c) else some (s.put c h)
    else none

/-- One header of `gc_decref`. -/
def gcDecrefOne (s : State) (p : Address) : Option State :=
  match s.headers p with
  | none => none
  | some h =>
    if h.mark then none
    else (h.children.foldlM gcDecrefChild s).bind fun s =>
      match s.headers p with
      | none => none
      | some h =>
        let s := s.put p { h with mark := true }
        if h.refCount = 0 then some (s.toTmp p) else some s

/-- The loop keeps the next header before it works on one, and what it moves to
`tmp_obj_list` has been visited, so it goes over the list as it was. -/
def gcDecref (s : State) : Option State :=
  s.gcObjList.foldlM gcDecrefOne { s with tmpObjList := [] }

def gcScanIncrefChild (s : State) (c : Address) : Option State :=
  match s.headers c with
  | none => none
  | some h =>
    h.incref.bind fun h =>
      if h.refCount = 1 then
        let s := s.put c { h with mark := false }
        some { s.unlink c with gcObjList := (s.unlink c).gcObjList ++ [c] }
      else some (s.put c h)

/-- The first loop of `gc_scan`; the cursor is the `i`-th of a list that grows at its end. -/
def gcScanLoop : Nat → Nat → State → Option State
  | 0, _, _ => none
  | fuel + 1, i, s =>
    match s.gcObjList[i]? with
    | none => some s
    | some p =>
      match s.headers p with
      | none => none
      | some h =>
        if 0 < h.refCount then
          (h.children.foldlM gcScanIncrefChild (s.put p { h with mark := false })).bind
            (gcScanLoop fuel (i + 1))
        else none

def gcScanIncrefChild2 (s : State) (c : Address) : Option State :=
  match s.headers c with
  | none => none
  | some h => h.incref.map (s.put c)

def gcScan (s : State) : Option State :=
  (gcScanLoop (s.allocated.length + 1) 0 s).bind fun s =>
    s.tmpObjList.foldlM (fun s p => (s.children p).foldlM gcScanIncrefChild2 s) s

def runGC (s : State) : Option State :=
  s.gcDecref.bind fun s => s.gcScan.bind fun s =>
    some { s with gcPhase := .removeCycles, frames := .gcFreeCycles :: s.frames }

end State

end Gc
