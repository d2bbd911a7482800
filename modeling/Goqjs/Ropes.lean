import Mathlib.Data.List.Basic

/-!
# String ropes of the engine

The ropes of `quickjs.c`: how two strings are joined without copying them, how a rope that has
grown too deep is built anew from buckets of Fibonacci lengths, and the iterator over the strings
of a rope, whose stack has room for `JS_STRING_ROPE_MAX_DEPTH` ropes. A join may build its result
anew, and that joins again, so the calls take a bound on their nesting.
-/

namespace Ropes

/-- `JSString`, as far as ropes look at it. -/
class JSString (σ : Type) where
  len : σ → Nat
  empty : σ
  concat : σ → σ → σ
  eq_empty : ∀ {p}, len p = 0 ↔ p = empty
  len_concat : ∀ p q, len (concat p q) = len p + len q
  empty_concat : ∀ p, concat empty p = p
  concat_empty : ∀ p, concat p empty = p
  concat_assoc : ∀ p q r, concat (concat p q) r = concat p (concat q r)

/-- Strings of UTF-16 units. -/
instance : JSString (List UInt16) where
  len := List.length
  empty := []
  concat := (· ++ ·)
  eq_empty := List.length_eq_zero_iff
  len_concat _ _ := List.length_append
  empty_concat := List.nil_append
  concat_empty := List.append_nil
  concat_assoc := List.append_assoc

/-- Lengths alone, for what does not depend on the text. -/
instance : JSString Nat where
  len := id
  empty := 0
  concat := (· + ·)
  eq_empty := Iff.rfl
  len_concat _ _ := rfl
  empty_concat := Nat.zero_add
  concat_empty := Nat.add_zero
  concat_assoc := Nat.add_assoc

open JSString

/-- A value with `JS_TAG_STRING` or `JS_TAG_STRING_ROPE`. -/
inductive Rope (σ : Type) where
  | str (p : σ)
  | rope (len depth : Nat) (left right : Rope σ)
  deriving DecidableEq

/-- How a call can end without a rope: it throws, it leaves the array of the buckets, or its calls
nest deeper than the bound. -/
inductive Stop where
  | tooLong
  | outside
  | nesting
  deriving DecidableEq

/-- `JS_STRING_LEN_MAX`. -/
def stringLenMax : Nat := (1 <<< 30) - 1

/-- `JS_STRING_ROPE_MAX_DEPTH`. -/
def ropeMaxDepth : Nat := 60

/-- `JS_STRING_ROPE_SHORT_LEN`. -/
def ropeShortLen : Nat := 512

/-- `JS_STRING_ROPE_SHORT2_LEN`. -/
def ropeShort2Len : Nat := 8192

def ropeBucketLen : List Nat :=
  [1, 2, 3, 5,
   8, 13, 21, 34,
   55, 89, 144, 233,
   377, 610, 987, 1597,
   2584, 4181, 6765, 10946,
   17711, 28657, 46368, 75025,
   121393, 196418, 317811, 514229,
   832040, 1346269, 2178309, 3524578,
   5702887, 9227465, 14930352, 24157817,
   39088169, 63245986, 102334155, 165580141,
   267914296, 433494437, 701408733, 1134903170]

variable {σ : Type} [JSString σ]

namespace Rope

/-- `string_rope_get_len`. -/
def len : Rope σ → Nat
  | str p => JSString.len p
  | rope l _ _ _ => l

def depth : Rope σ → Nat
  | str _ => 0
  | rope _ d _ _ => d

/-- The rope over two others that `js_new_string_rope` fills in. -/
def node (op1 op2 : Rope σ) : Rope σ :=
  rope (op1.len + op2.len) (max op1.depth op2.depth + 1) op1 op2

def text : Rope σ → σ
  | str p => p
  | rope _ _ l r => concat l.text r.text

/-- The strings of a rope from left to right. -/
def leaves : Rope σ → List σ
  | str p => [p]
  | rope _ _ l r => l.leaves ++ r.leaves

@[simp] theorem len_node (a b : Rope σ) : (node a b).len = a.len + b.len := rfl

@[simp] theorem depth_node (a b : Rope σ) : (node a b).depth = max a.depth b.depth + 1 := rfl

@[simp] theorem leaves_node (a b : Rope σ) : (node a b).leaves = a.leaves ++ b.leaves := rfl

end Rope

open Rope

/-- `js_new_string_rope` for the calls that the function itself does not answer. -/
abbrev Join (σ : Type) : Type := Rope σ → Rope σ → Except Stop (Rope σ)

abbrev Buckets (σ : Type) : Type := List (Option (Rope σ))

/-- One bucket goes in front of what is gathered so far. -/
def gatherOne (join : Join σ) : Option (Rope σ) → Option (Rope σ) →
    Except Stop (Option (Rope σ))
  | none, a => .ok a
  | some b, none => .ok (some b)
  | some b, some a => (join b a).map some

/-- The string goes behind what is gathered so far. -/
def putBehind (join : Join σ) (val : Rope σ) : Option (Rope σ) → Except Stop (Rope σ)
  | none => .ok val
  | some a => join a val

/-- The second loop of `js_rebalance_string_rope_rec`: on through the full buckets. -/
def settle (join : Join σ) : Buckets σ → Rope σ → Except Stop (Buckets σ)
  | [], _ => .error .outside
  | none :: buckets, a => .ok (some a :: buckets)
  | some b :: buckets, a =>
    (join b a).bind fun a => (settle join buckets a).map fun buckets => none :: buckets

/-- The first loop of `js_rebalance_string_rope_rec`, from a bucket on. The bounds are
`rope_bucket_len[i + 1]` and those after it. -/
def sink (join : Join σ) (val : Rope σ) : List Nat → Buckets σ → Option (Rope σ) →
    Except Stop (Buckets σ)
  | bound :: bounds, b :: buckets, a =>
    if bound ≤ val.len then
      (gatherOne join b a).bind fun a =>
        (sink join val bounds buckets a).map fun buckets => none :: buckets
    else (putBehind join val a).bind fun a => settle join (b :: buckets) a
  | _, _, _ => .error .outside

/-- `js_rebalance_string_rope_rec` on a string. -/
def insert (join : Join σ) (buckets : Buckets σ) (p : σ) : Except Stop (Buckets σ) :=
  if JSString.len p = 0 then .ok buckets
  else sink join (.str p) ropeBucketLen.tail buckets none

def rebalanceStringRopeRec (join : Join σ) (buckets : Buckets σ) :
    Rope σ → Except Stop (Buckets σ)
  | .str p => insert join buckets p
  | .rope _ _ l r =>
    (rebalanceStringRopeRec join buckets l).bind fun buckets =>
      rebalanceStringRopeRec join buckets r

/-- The loop of `js_rebalance_string_rope`. -/
def gather (join : Join σ) : Buckets σ → Option (Rope σ) → Except Stop (Option (Rope σ))
  | [], a => .ok a
  | b :: buckets, a => (gatherOne join b a).bind fun a => gather join buckets a

def noBuckets : Buckets σ := List.replicate ropeBucketLen.length none

def rebalanceStringRope (join : Join σ) (rope : Rope σ) : Except Stop (Rope σ) :=
  (rebalanceStringRopeRec join noBuckets rope).bind fun buckets =>
    (gather join buckets none).map fun a => a.getD (.str empty)

def newStringRope : Nat → Join σ
  | 0, _, _ => .error .nesting
  | nesting + 1, op1, op2 =>
    if stringLenMax < op1.len + op2.len then .error .tooLong
    else if ropeMaxDepth < (node op1 op2).depth then
      rebalanceStringRope (newStringRope nesting) (node op1 op2)
    else .ok (node op1 op2)

/-- `JS_ConcatString2`. -/
def concatString2 (p1 p2 : σ) : Except Stop (Rope σ) :=
  if JSString.len p2 = 0 then .ok (.str p1)
  else if stringLenMax < JSString.len p1 + JSString.len p2 then .error .tooLong
  else .ok (.str (concat p1 p2))

/-- `JS_ConcatString` on strings and ropes. -/
def concatString (nesting : Nat) (op1 op2 : Rope σ) : Except Stop (Rope σ) :=
  match op2 with
  | .str p2 =>
    if JSString.len p2 = 0 then .ok op1
    else if JSString.len p2 ≤ ropeShortLen then
      match op1 with
      | .str p1 =>
        if JSString.len p1 ≤ ropeShort2Len then concatString2 p1 p2
        else newStringRope nesting op1 op2
      | .rope _ _ left (.str q) =>
        if JSString.len q ≤ ropeShortLen then
          (concatString2 q p2).bind fun val => newStringRope nesting left val
        else newStringRope nesting op1 op2
      | .rope _ _ _ (.rope _ _ _ _) => newStringRope nesting op1 op2
    else newStringRope nesting op1 op2
  | .rope _ _ left right =>
    match op1 with
    | .str p1 =>
      if JSString.len p1 = 0 then .ok op2
      else
        match left with
        | .str q =>
          if JSString.len q ≤ ropeShortLen then
            (concatString2 p1 q).bind fun val => newStringRope nesting val right
          else newStringRope nesting op1 op2
        | .rope _ _ _ _ => newStringRope nesting op1 op2
    | .rope _ _ _ _ => newStringRope nesting op1 op2

/-- The test whether a rope is already linearized. -/
def isLinearized : Rope σ → Bool
  | .rope _ _ _ (.str q) => JSString.len q = 0
  | _ => false

/-- `js_linearize_string_rope`: the string, and what the rope is afterwards. -/
def linearizeStringRope (shared : Bool) : Rope σ → Rope σ × Rope σ
  | .str p => (.str p, .str p)
  | .rope n d left right =>
    if isLinearized (.rope n d left right) then (left, .rope n d left right)
    else if shared then
      (.str (Rope.rope n d left right).text,
        .rope n d (.str (Rope.rope n d left right).text) (.str empty))
    else (.str (Rope.rope n d left right).text, .rope n d left right)

/-- The loop of `string_rope_iter_next`; `none` is the failed assertion. -/
def descend : Rope σ → List (Rope σ) → Option (σ × List (Rope σ))
  | .str p, stack => some (p, stack)
  | .rope _ _ left right, stack =>
    if stack.length < ropeMaxDepth then descend left (right :: stack) else none

/-- `string_rope_iter_next`; without a string at the end. -/
def iterNext : List (Rope σ) → Option (Option σ × List (Rope σ))
  | [] => some (none, [])
  | val :: stack => (descend val stack).map fun t => (some t.1, t.2)

/-- The next strings of an iterator, as many as asked for. -/
def iterTake : Nat → List (Rope σ) → Option (List (Option σ))
  | 0, _ => some []
  | n + 1, stack =>
    (iterNext stack).bind fun t => (iterTake n t.2).map fun l => t.1 :: l

end Ropes
