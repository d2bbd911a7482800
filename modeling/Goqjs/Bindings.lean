import Mathlib.Algebra.Group.Int.Defs
import Mathlib.Data.List.TakeWhile
import Goqjs.EngineRoundTrip
import Goqjs.Binary64

/-!
# Values and the conversions of the binding layer

A Go function called from JavaScript sees its arguments through the methods of
`Value`: each calls one engine function, drops its status and returns what Go
needs. A `Call` is the body of such a function: what it asks, in order, and what
it does. Running one keeps the exception that the engine has pending.
-/

namespace Qjs

open Quickjs Binary64

/-- A Go string is its bytes. -/
abbrev GoString := List UInt8

/-- A quantifier over the bytes of a text is decided byte by byte, not over all bytes there are. -/
scoped instance (priority := high) decidableForallMem {α : Type} (l : List α) (p : α → Prop)
    [DecidablePred p] : Decidable (∀ c ∈ l, p c) := List.decidableBAll p l

def ascii (s : String) : GoString := s.toList.map (fun c => .ofNat c.toNat)

/-- A string of the engine with the given ASCII text. -/
def js (s : String) : Str := .narrow (ascii s)

inductive Number where
  | int32 (i : Int)
  | float64 (d : Double)
  deriving DecidableEq

/-- `JS_NewInt64`. -/
def newInt64 (v : Int) : Number :=
  if -2 ^ 31 ≤ v ∧ v ≤ 2 ^ 31 - 1 then .int32 v else .float64 (ofInt v)

/-- The two's complement reading of the low `w` bits. -/
def wrap (w : Nat) (n : Nat) : Int :=
  if n % 2 ^ w < 2 ^ (w - 1) then (n % 2 ^ w : Nat) else (n % 2 ^ w : Nat) - 2 ^ w

/-- Take the sign into account; the least integer stays. -/
def applySign (w : Nat) (negative : Bool) (ret : Int) : Int :=
  if negative && ret != -2 ^ (w - 1) then -ret else ret

/-- `JS_ToInt64Free` of a number. -/
def toInt64 : Number → Int
  | .int32 i => i
  | .float64 d =>
    if d.exponent ≤ 1023 + 62 then d.trunc
    else if d.exponent ≤ 1023 + 62 + 53 then
      applySign 64 d.negative (wrap 64 (d.mantissa <<< (d.exponent - 1023 - 52)))
    else 0

/-- `JS_ToInt32Free` of a number. -/
def toInt32 : Number → Int
  | .int32 i => i
  | .float64 d =>
    if d.exponent ≤ 1023 + 30 then d.trunc
    else if d.exponent ≤ 1023 + 30 + 53 then
      applySign 32 d.negative
        (wrap 32 ((d.mantissa <<< (d.exponent - 1023 + 32 - 52)) % 2 ^ 64 / 2 ^ 32))
    else 0

/-- An id comes back as long as a double holds it exactly. -/
theorem toInt64_newInt64 {v : Int} (h : v.natAbs < 2 ^ 53) : toInt64 (newInt64 v) = v := by
  unfold newInt64
  split_ifs
  · rfl
  · have range := exponent_ofInt_le h
    rw [toInt64, if_pos (by omega), trunc_ofInt h]

/-- `exception` is what an engine function returns when it has thrown. A `uint8Array` is a
view; a `record` is an object whose own properties are enumerable data properties, in the order
in which the engine lists them, and whose prototype is `Object.prototype`; any other object is
an `object`, known through the engine. -/
inductive Value (O : Type) where
  | undefined
  | null
  | exception
  | bool (b : Bool)
  | number (n : Number)
  | bigInt (i : Int)
  | symbol
  | string (s : Str)
  | arrayBuffer (data : Bytes)
  | uint8Array (buffer : Bytes) (offset length : Nat)
  | record (fields : List (Str × Value O))
  | object (o : O)

namespace Value

variable {O : Type}

def isUndefined : Value O → Bool
  | .undefined => true
  | _ => false

def isNull : Value O → Bool
  | .null => true
  | _ => false

def isObject : Value O → Bool
  | .arrayBuffer _ | .uint8Array _ _ _ | .record _ | .object _ => true
  | _ => false

/-- What a condition of JavaScript makes of a value. -/
def truthy : Value O → Bool
  | .undefined | .null | .exception => false
  | .bool b => b
  | .number (.int32 i) => i != 0
  | .number (.float64 d) =>
    !(d.exponent == 0 && d.fraction == 0) && !(d.exponent == 2047 && d.fraction != 0)
  | .bigInt i => i != 0
  | .string s => !s.units.isEmpty
  | .symbol | .arrayBuffer _ | .uint8Array _ _ _ | .record _ | .object _ => true

/-- `a || b`. -/
def orElse (a b : Value O) : Value O := if a.truthy then a else b

/-- `Context.NewString` and `Context.NewArrayBuffer`. -/
def newString (s : GoString) : Value O := .string (newStringLen s)
def newArrayBuffer (data : Bytes) : Value O := .arrayBuffer data

end Value

/-- What a view shows of its buffer. -/
def viewBytes (buffer : Bytes) (offset length : Nat) : Bytes := (buffer.drop offset).take length

/-- The decimal digits of a number, as `i32toa` writes them. -/
def decimal (n : Nat) : GoString := (Nat.toDigits 10 n).map (fun c => .ofNat c.toNat)

def decimalInt (i : Int) : GoString :=
  if i < 0 then ascii "-" ++ decimal i.natAbs else decimal i.natAbs

/-- `Array.prototype.join` and `strings.Join`. -/
def joinWith (sep : GoString) : List GoString → GoString
  | [] => []
  | [a] => a
  | a :: rest => a ++ sep ++ joinWith sep rest

/-- The text of a `Uint8Array`: its elements in decimal, with commas between them. -/
def viewText (data : Bytes) : GoString := joinWith (ascii ",") (data.map (fun b => decimal b.toNat))

/-- A thrown value: one that engine or user code throws, a `TypeError` of a conversion, or the
error that a Go function throws itself. -/
inductive Thrown (X : Type) where
  | js (e : X)
  | typeError (msg : String)
  | internalError (msg : GoString)
  deriving DecidableEq

/-- The methods of `Value` that ask the engine. -/
inductive Op (O : Type) where
  | string (v : Value O)
  | int32 (v : Value O)
  | int64 (v : Value O)
  | toByteArray (v : Value O)
  | get (v : Value O) (name : GoString)
  | keys (v : Value O)

namespace Op

variable {O : Type}

abbrev Answer : Op O → Type
  | string _ => GoString
  | int32 _ => Int
  | int64 _ => Int
  | toByteArray _ => Option Bytes
  | get _ _ => Value O
  | keys _ => List GoString

/-- What the method returns when the engine function fails. -/
def failed : (op : Op O) → op.Answer
  | string _ => []
  | int32 _ => (0 : Int)
  | int64 _ => (0 : Int)
  | toByteArray _ => none
  | get _ _ => Value.exception
  | keys _ => []

/-- The engine function runs user code: an object converts itself. -/
def runs : Op O → Bool
  | string (.object _) | int32 (.object _) | int64 (.object _) | get (.object _) _
  | keys (.object _) => true
  | _ => false

/-- `String` of a value that is no value fails without throwing. -/
def onException : Op O → Bool
  | string .exception => true
  | _ => false

end Op

/-- Conversions of objects may run user code: they can throw and change the world. `leaves` is the
exception that the user code of one that succeeds leaves pending, where another was before: code
that throws and catches takes it away, and a function of Go's that it calls may leave one behind.
`getArrayBuffer` is the content of an attached `ArrayBuffer` or `SharedArrayBuffer`. -/
structure Engine where
  World : Type
  Obj : Type
  Exn : Type
  toString : Obj → World → Except Exn Str × World
  toNumber : Obj → World → Except Exn Number × World
  getProperty : Obj → GoString → World → Except Exn (Value Obj) × World
  ownKeys : Obj → World → Except Exn (List Str) × World
  getArrayBuffer : Obj → World → Option Bytes
  leaves : Op Obj → World → Option (Thrown Exn) → Option (Thrown Exn)
  numberToString : Number → Str
  stringToNumber : Str → Number

/-- An engine without objects of the user's, for runs on plain values. -/
def plainEngine : Engine where
  World := Unit
  Obj := Empty
  Exn := Empty
  toString o := o.elim
  toNumber o := o.elim
  getProperty o := o.elim
  ownKeys o := o.elim
  getArrayBuffer o := o.elim
  leaves _ _ pending := pending
  numberToString
    | .int32 i => .narrow (decimalInt i)
    | .float64 d => .narrow (decimalInt d.trunc)
  stringToNumber _ := .int32 0

namespace Engine

variable (E : Engine)

def lift {α : Type} (r : Except E.Exn α × E.World) : Except (Thrown E.Exn) α × E.World :=
  (r.1.mapError .js, r.2)

/-- `JS_ToString`. -/
def toStr (v : Value E.Obj) (w : E.World) : Except (Thrown E.Exn) Str × E.World :=
  match v with
  | .undefined => (.ok (js "undefined"), w)
  | .null => (.ok (js "null"), w)
  | .exception => (.error (.typeError ""), w)
  | .bool b => (.ok (if b then js "true" else js "false"), w)
  | .number n => (.ok (E.numberToString n), w)
  | .bigInt i => (.ok (.narrow (decimalInt i)), w)
  | .symbol => (.error (.typeError "cannot convert symbol to string"), w)
  | .string s => (.ok s, w)
  | .arrayBuffer _ => (.ok (js "[object ArrayBuffer]"), w)
  | .uint8Array buffer offset length => (.ok (.narrow (viewText (viewBytes buffer offset length))), w)
  | .record _ => (.ok (js "[object Object]"), w)
  | .object o => E.lift (E.toString o w)

/-- The number that `JS_ToInt32` and `JS_ToInt64` cut off. -/
def toNum (v : Value E.Obj) (w : E.World) : Except (Thrown E.Exn) Number × E.World :=
  match v with
  | .undefined => (.ok (.int32 0), w)
  | .null => (.ok (.int32 0), w)
  | .exception => (.error (.typeError ""), w)
  | .bool b => (.ok (.int32 (if b then 1 else 0)), w)
  | .number n => (.ok n, w)
  | .bigInt _ => (.error (.typeError "cannot convert BigInt to number"), w)
  | .symbol => (.error (.typeError "cannot convert symbol to number"), w)
  | .string s => (.ok (E.stringToNumber s), w)
  | .object o => E.lift (E.toNumber o w)
  | .arrayBuffer _ => (.ok (E.stringToNumber (js "[object ArrayBuffer]")), w)
  | .uint8Array buffer offset length =>
    (.ok (E.stringToNumber (.narrow (viewText (viewBytes buffer offset length)))), w)
  | .record _ => (.ok (E.stringToNumber (js "[object Object]")), w)

/-- `JS_GetArrayBuffer`, with the bytes copied. -/
def bytesOf (v : Value E.Obj) (w : E.World) : Except (Thrown E.Exn) Bytes :=
  match v with
  | .arrayBuffer data => .ok data
  | .object o =>
    match E.getArrayBuffer o w with
    | some data => .ok data
    | none => .error (.typeError "ArrayBuffer object expected")
  | _ => .error (.typeError "ArrayBuffer object expected")

/-- A name is handed over as a C string and ends at its first NUL. -/
def cString (name : GoString) : GoString := name.takeWhile (· != 0)

theorem nul_of_cString {name : GoString} (h : cString name ≠ name) : (0 : UInt8) ∈ name := by
  by_contra none
  refine h (List.takeWhile_eq_self_iff.mpr fun c hc => ?_)
  rw [bne_iff_ne]
  rintro rfl
  exact none hc

/-- The own property of a record under a name, where no other property goes by an 8-bit name whose
characters are the bytes of this one. -/
def fieldOf (fields : List (Str × Value E.Obj)) (name : GoString) : Value E.Obj :=
  match fields.find? (fun f => toCStringLen f.1 == name) with
  | some f => f.2
  | none => .undefined

/-- `JS_GetPropertyStr`. -/
def get (v : Value E.Obj) (name : GoString) (w : E.World) :
    Except (Thrown E.Exn) (Value E.Obj) × E.World :=
  match v with
  | .record fields => (.ok (E.fieldOf fields name), w)
  | .object o => E.lift (E.getProperty o name w)
  | .uint8Array buffer offset length =>
    match (viewBytes buffer offset length).zipIdx.find? (fun b => decimal b.2 == name) with
    | some b => (.ok (.number (.int32 b.1.toNat)), w)
    | none => (.ok .undefined, w)
  | .undefined | .null | .exception => (.error (.typeError "cannot read property"), w)
  | _ => (.ok .undefined, w)

/-- `JS_GetOwnPropertyNames` with the flags of `Keys`. -/
def keysOf (v : Value E.Obj) (w : E.World) : Except (Thrown E.Exn) (List Str) × E.World :=
  match v with
  | .record fields => (.ok (fields.map Prod.fst), w)
  | .object o => E.lift (E.ownKeys o w)
  | .uint8Array buffer offset length =>
    (.ok ((List.range (viewBytes buffer offset length).length).map (fun i => .narrow (decimal i))), w)
  | .arrayBuffer _ => (.ok [], w)
  | _ => (.error (.typeError "not an object"), w)

/-- The engine function behind a method, with its status. -/
def answer : (op : Op E.Obj) → E.World → Except (Thrown E.Exn) op.Answer × E.World
  | .string v, w => ((E.toStr v w).1.map toCStringLen, (E.toStr v w).2)
  | .int32 v, w => ((E.toNum v w).1.map toInt32, (E.toNum v w).2)
  | .int64 v, w => ((E.toNum v w).1.map toInt64, (E.toNum v w).2)
  | .toByteArray v, w => ((E.bytesOf v w).map some, w)
  | .get v name, w => E.get v (cString name) w
  | .keys v, w => ((E.keysOf v w).1.map (List.map toCStringLen), (E.keysOf v w).2)

end Engine

/-- `throwError` is `return ctx.ThrowError(msg)`; an `effect` is something the function does
itself; `takeException` is `ctx.Exception()`. -/
inductive Call (O ε α : Type) where
  | ret (a : α)
  | throwError (msg : GoString)
  | op (o : Op O) (k : o.Answer → Call O ε α)
  | effect (e : ε) (k : Call O ε α)
  | takeException (k : Call O ε α)

namespace Call

variable {O ε α β : Type}

def bind : Call O ε α → (α → Call O ε β) → Call O ε β
  | .ret a, f => f a
  | .throwError msg, _ => .throwError msg
  | .op o k, f => .op o (fun a => bind (k a) f)
  | .effect e k, f => .effect e (bind k f)
  | .takeException k, f => .takeException (bind k f)

instance : Monad (Call O ε) where
  pure := .ret
  bind := bind

/-- The methods, as steps of a body. -/
def string (v : Value O) : Call O ε GoString := .op (.string v) .ret
def int32 (v : Value O) : Call O ε Int := .op (.int32 v) .ret
def int64 (v : Value O) : Call O ε Int := .op (.int64 v) .ret
def toByteArray (v : Value O) : Call O ε (Option Bytes) := .op (.toByteArray v) .ret
def get (v : Value O) (name : GoString) : Call O ε (Value O) := .op (.get v name) .ret
def keys (v : Value O) : Call O ε (List GoString) := .op (.keys v) .ret
def does (e : ε) : Call O ε Unit := .effect e (.ret ())

end Call

/-- `pending` is the runtime's current exception. -/
structure Rt (E : Engine) where
  world : E.World
  pending : Option (Thrown E.Exn)

def plainRt : Rt plainEngine := ⟨(), none⟩

/-- How a call has ended: `result` is `none` where `JS_EXCEPTION` was returned, and then the
pending exception is thrown to the caller. `raised` are the failed operations. -/
structure Outcome (E : Engine) (ε α : Type) where
  result : Option α
  rt : Rt E
  raised : List (Op E.Obj × Thrown E.Exn)
  effects : List ε

section Run

variable (E : Engine) {ε α : Type}

def Outcome.after {E : Engine} {ε α : Type} (raised : List (Op E.Obj × Thrown E.Exn))
    (effects : List ε) (o : Outcome E ε α) : Outcome E ε α :=
  { o with raised := raised ++ o.raised, effects := effects ++ o.effects }

/-- What is pending after a method whose engine function succeeds. -/
def Engine.pendingAfter (op : Op E.Obj) (w : E.World) (pending : Option (Thrown E.Exn)) :
    Option (Thrown E.Exn) :=
  if op.runs then E.leaves op w pending else pending

/-- A method call: an exception of the engine stays pending and its default is returned. -/
def perform (op : Op E.Obj) (s : Rt E) :
    op.Answer × Rt E × List (Op E.Obj × Thrown E.Exn) :=
  if op.onException then (op.failed, s, [])
  else
    match E.answer op s.world with
    | (.ok a, w) => (a, ⟨w, E.pendingAfter op s.world s.pending⟩, [])
    | (.error e, w) => (op.failed, ⟨w, some e⟩, [(op, e)])

/-- What a method returns does not depend on what is pending. -/
theorem perform_pending (op : Op E.Obj) (s t : Rt E) (same : s.world = t.world) :
    (perform E op s).1 = (perform E op t).1 ∧
      (perform E op s).2.1.world = (perform E op t).2.1.world := by
  unfold perform
  split_ifs
  · exact ⟨rfl, same⟩
  · rw [same]
    split <;> exact ⟨rfl, rfl⟩

def run : Call E.Obj ε α → Rt E → Outcome E ε α
  | .ret a, s => ⟨some a, s, [], []⟩
  | .throwError msg, s => ⟨none, { s with pending := some (.internalError msg) }, [], []⟩
  | .op o k, s =>
    let (a, t, raised) := perform E o s
    (run (k a) t).after raised []
  | .effect e k, s => (run k s).after [] [e]
  | .takeException k, s => run k { s with pending := none }

@[simp] theorem Outcome.after_nil (o : Outcome E ε α) : o.after [] [] = o := rfl

@[simp] theorem run_ret (a : α) (s : Rt E) :
    run E (.ret a : Call E.Obj ε α) s = ⟨some a, s, [], []⟩ := rfl

@[simp] theorem run_pure (a : α) (s : Rt E) :
    run E (pure a : Call E.Obj ε α) s = ⟨some a, s, [], []⟩ := rfl

/-- After a string the body goes on with its UTF-8. -/
@[simp] theorem run_string (str : Str) (k : GoString → Call E.Obj ε α) (s : Rt E) :
    run E (.op (.string (.string str)) k) s = run E (k (toCStringLen str)) s := rfl

@[simp] theorem run_toByteArray (data : Bytes) (k : Option Bytes → Call E.Obj ε α) (s : Rt E) :
    run E (.op (.toByteArray (.arrayBuffer data)) k) s = run E (k (some data)) s := rfl

@[simp] theorem result_after (raised : List (Op E.Obj × Thrown E.Exn)) (effects : List ε)
    (o : Outcome E ε α) : (o.after raised effects).result = o.result := rfl

/-- The test of a string for bytes leaves its exception pending. -/
@[simp] theorem run_toByteArray_string (str : Str) (k : Option Bytes → Call E.Obj ε α) (s : Rt E) :
    run E (.op (.toByteArray (.string str)) k) s =
      (run E (k none) { s with pending := some (.typeError "ArrayBuffer object expected") }).after
        [(.toByteArray (.string str), .typeError "ArrayBuffer object expected")] [] := rfl

end Run

namespace Call

variable {O ε α β : Type}

@[simp] theorem ret_bind (a : α) (f : α → Call O ε β) : (Call.ret a >>= f) = f a := rfl
@[simp] theorem pure_bind (a : α) (f : α → Call O ε β) : (pure a >>= f) = f a := rfl
@[simp] theorem throwError_bind (msg : GoString) (f : α → Call O ε β) :
    ((Call.throwError msg : Call O ε α) >>= f) = Call.throwError msg := rfl
@[simp] theorem op_bind (o : Op O) (k : o.Answer → Call O ε α) (f : α → Call O ε β) :
    (Call.op o k >>= f) = Call.op o (fun a => k a >>= f) := rfl
theorem bind_ret (c : Call O ε α) : c >>= .ret = c := by
  induction c with
  | ret a => rfl
  | «throwError» msg => rfl
  | op o k ih => exact congrArg (Call.op o) (funext ih)
  | effect e k ih => exact congrArg (Call.effect e) ih
  | takeException k ih => exact congrArg Call.takeException ih

theorem bind_assoc {γ : Type} (c : Call O ε α) (f : α → Call O ε β) (g : β → Call O ε γ) :
    c >>= f >>= g = c >>= fun a => f a >>= g := by
  induction c with
  | ret a => rfl
  | «throwError» msg => rfl
  | op o k ih => exact congrArg (Call.op o) (funext ih)
  | effect e k ih => exact congrArg (Call.effect e) ih
  | takeException k ih => exact congrArg Call.takeException ih

instance : LawfulMonad (Call O ε) :=
  LawfulMonad.mk' (Call O ε) (fun c => bind_ret c) (fun _ _ => rfl) (fun c f g => bind_assoc c f g)

@[simp] theorem string_bind (v : Value O) (f : GoString → Call O ε β) :
    (Call.string v >>= f) = Call.op (.string v) f := rfl
@[simp] theorem int32_bind (v : Value O) (f : Int → Call O ε β) :
    (Call.int32 v >>= f) = Call.op (.int32 v) f := rfl
@[simp] theorem int64_bind (v : Value O) (f : Int → Call O ε β) :
    (Call.int64 v >>= f) = Call.op (.int64 v) f := rfl
@[simp] theorem toByteArray_bind (v : Value O) (f : Option Bytes → Call O ε β) :
    (Call.toByteArray v >>= f) = Call.op (.toByteArray v) f := rfl
@[simp] theorem get_bind (v : Value O) (name : GoString) (f : Value O → Call O ε β) :
    (Call.get v name >>= f) = Call.op (.get v name) f := rfl
@[simp] theorem keys_bind (v : Value O) (f : List GoString → Call O ε β) :
    (Call.keys v >>= f) = Call.op (.keys v) f := rfl
@[simp] theorem does_bind (e : ε) (f : Unit → Call O ε β) :
    (Call.does e >>= f) = Call.effect e (f ()) := rfl
@[simp] theorem effect_bind (e : ε) (k : Call O ε α) (f : α → Call O ε β) :
    (Call.effect e k >>= f) = Call.effect e (k >>= f) := rfl

end Call

section Returns

variable {E : Engine} {ε α β : Type}

theorem result_bind (c : Call E.Obj ε α) (f : α → Call E.Obj ε β) (s : Rt E) :
    (run E (c >>= f) s).result =
      (run E c s).result.bind fun a => (run E (f a) (run E c s).rt).result := by
  induction c generalizing s with
  | ret a => rfl
  | «throwError» msg => rfl
  | op o k ih => exact ih _ _
  | effect e k ih => exact ih s
  | takeException k ih => exact ih _

/-- The body does not throw an error of its own, and its result has the property. -/
def Returns (c : Call E.Obj ε α) (P : α → Prop) : Prop :=
  ∀ s, ∃ a, (run E c s).result = some a ∧ P a

theorem Returns.pure {P : α → Prop} {a : α} (h : P a) :
    Returns (Pure.pure a : Call E.Obj ε α) P :=
  fun _ => ⟨a, rfl, h⟩

theorem Returns.op {P : α → Prop} {o : Op E.Obj} {k : o.Answer → Call E.Obj ε α}
    (h : ∀ a, Returns (k a) P) : Returns (.op o k) P := by
  intro s
  exact h (perform E o s).1 (perform E o s).2.1

theorem Returns.bind {P : α → Prop} {Q : β → Prop} {c : Call E.Obj ε α}
    {f : α → Call E.Obj ε β} (first : Returns c P) (second : ∀ a, P a → Returns (f a) Q) :
    Returns (c >>= f) Q := by
  intro s
  obtain ⟨a, ha, hp⟩ := first s
  rw [result_bind, ha]
  exact second a hp _

end Returns

end Qjs
