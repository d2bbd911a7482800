import Mathlib.Data.List.Basic

/-!
# JavaScript values as the prelude sees them

The prelude asks the engine whether a value is true or callable, reads
properties and turns values into text; where a value is an object, user code may
answer. An `Engine` is one set of answers: every step of a model carries its own,
so that nothing is assumed about how they vary. A thrown value is an `Except.error`.
-/

namespace Js

/-- `promise n` is a promise whose `then` and `catch` are the built-in ones. -/
inductive Value (V : Type) where
  | undefined
  | null
  | string (text : String)
  | promise (n : Nat)
  | other (v : V)
  deriving DecidableEq

/-- `get n` is the `n`-th read of a property within the step; `concat` is `text + value`;
`typeError` is thrown where a value that is not callable is called. -/
structure Engine (V : Type) where
  truthy : Value V → Bool
  callable : Value V → Bool
  get : Nat → Value V → String → Except (Value V) (Value V)
  string : Value V → Except (Value V) String
  concat : String → Value V → Except (Value V) String
  stringify : List (String × Value V) → Except (Value V) String
  typeError : Value V

variable {V : Type}

/-- `(err && err.message) ? err.message : String(err)`. -/
def errMsg (engine : Engine V) (err : Value V) : Except (Value V) (Value V) :=
  if engine.truthy err then do
    let message ← engine.get 0 err "message"
    if engine.truthy message then engine.get 1 err "message"
    else return .string (← engine.string err)
  else do
    return .string (← engine.string err)

/-- The answers for a few values: `other 0` is a function, `other 1` an object whose only
property is a callable `then`, `other 2` one without a prototype, `other 3` an error and
`other 4` a response whose status is `other 200`. -/
def sampleEngine : Engine Nat where
  truthy v := v ≠ .undefined ∧ v ≠ .null ∧ v ≠ .string ""
  callable v := v = .other 0
  get _ v name :=
    match v with
    | .undefined => .error (.string "TypeError")
    | .null => .error (.string "TypeError")
    | .other 1 => .ok (if name = "then" then .other 0 else .undefined)
    | .other 3 => .ok (if name = "message" then .string "timeout" else .undefined)
    | .other 4 =>
      .ok (if name = "status" then .other 200
        else if name = "statusText" then .string "OK" else .undefined)
    | _ => .ok .undefined
  string v :=
    match v with
    | .string text => .ok text
    | .other 2 => .error (.string "TypeError")
    | _ => .ok "[object Object]"
  concat text v :=
    match v with
    | .string more => .ok (text ++ more)
    | _ => .error (.string "TypeError")
  stringify message := .ok ("\x7b" ++ String.intercalate "," (message.filterMap field) ++ "\x7d")
  typeError := .string "TypeError"
where
  field : String × Value Nat → Option String
    | (name, .string text) => some ("\"" ++ name ++ "\":\"" ++ text ++ "\"")
    | (name, .null) => some ("\"" ++ name ++ "\":null")
    | (_, .undefined) => none
    | (_, .other 0) => none
    | (name, _) => some ("\"" ++ name ++ "\":\x7b\x7d")

end Js
