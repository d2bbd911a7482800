import Goqjs.Maps
import Goqjs.RopeCompare

/-!
# Strings as keys of a map

`map_hash_key` mixes the tag of a string into its hash, and a rope has a tag of its own, while
`js_same_value_zero` takes a rope and a string for the same key if their texts are the same.
-/

namespace Ropes

open JSString Rope

/-- `hash_string8` and `hash_string16`. -/
def hashString (p : Units) (h : UInt32) : UInt32 :=
  p.foldl (fun h c => h * 263 + c.toUInt32) h

def hashStringRope : Rope Units → UInt32 → UInt32
  | .str p, h => hashString p h
  | .rope _ _ left right, h => hashStringRope right (hashStringRope left h)

/-- `JS_TAG_STRING` and `JS_TAG_STRING_ROPE`, as `map_hash_key` has them. -/
def keyTag : Rope Units → UInt32
  | .str _ => 0xFFFFFFF9
  | .rope _ _ _ _ => 0xFFFFFFFA

/-- `map_hash_key` on a string or a rope. -/
def mapHashKey (key : Rope Units) : UInt32 := hashStringRope key 0 ^^^ keyTag key

/-- `js_same_value_zero` on strings and ropes. -/
def sameValueZero (rounds : Nat) : Rope Units → Rope Units → Option Bool
  | .str p, .str q => some (p = q)
  | op1, op2 => (stringRopeCompare rounds true op1 op2).map fun res => res = .eq

theorem hashStringRope_eq (r : Rope Units) (h : UInt32) :
    hashStringRope r h = hashString r.text h := by
  induction r generalizing h with
  | str p => rfl
  | rope n d left right ihl ihr =>
    rw [hashStringRope, ihl, ihr]
    exact (List.foldl_append ..).symm

/-- Keys that are all strings keep the laws of a map. -/
def stringKeys : Maps.Keys Units where
  hash p := mapHashKey (.str p)
  same p q := p = q
  refl p := decide_eq_true rfl
  symm same := decide_eq_true (of_decide_eq_true same).symm
  trans same same' := decide_eq_true ((of_decide_eq_true same).trans (of_decide_eq_true same'))
  hash_eq same := by rw [of_decide_eq_true same]

theorem sameValueZero_spec {op1 op2 : Rope Units} {p q : Units} (h1 : Made op1 p)
    (h2 : Made op2 q) :
    ∃ bound, ∀ rounds, bound ≤ rounds →
      sameValueZero rounds op1 op2 = some (decide (p = q)) := by
  obtain ⟨bound, compared⟩ := made_compare h1 h2
  refine ⟨bound, fun rounds enough => ?_⟩
  obtain ⟨-, res, there, alike⟩ := compared rounds enough
  have compares : (stringRopeCompare rounds true op1 op2).map (fun res => decide (res = .eq)) =
      some (decide (p = q)) := by
    rw [there, Option.map_some, decide_eq_decide.mpr alike]
  cases op1 with
  | rope n d l r => exact compares
  | str p' =>
    cases op2 with
    | rope n d l r => exact compares
    | str q' =>
      rw [← h1.valid.2, ← h2.valid.2]
      rfl

theorem keyTag_parity (key : Rope Units) : (keyTag key).toNat.testBit 0 = true ↔ key.IsStr := by
  cases key with
  | str p =>
    have odd : (0xFFFFFFF9 : UInt32).toNat.testBit 0 = true := by decide
    exact iff_of_true odd trivial
  | rope n d l r =>
    have even : ¬(0xFFFFFFFA : UInt32).toNat.testBit 0 = true := by decide
    exact iff_of_false even id

theorem keyTag_eq {op1 op2 : Rope Units} (h : op1.IsStr ↔ op2.IsStr) :
    keyTag op1 = keyTag op2 := by
  cases op1 with
  | str p =>
    cases op2 with
    | str q => rfl
    | rope n d l r => exact (h.mp trivial).elim
  | rope n d l r =>
    cases op2 with
    | str q => exact (h.mpr trivial).elim
    | rope n' d' l' r' => rfl

/-- The bucket of a string in a table of this size. -/
def keyBucket (hashSize : Nat) (key : Rope Units) : Nat :=
  (mapHashKey key).toNat &&& (hashSize - 1)

theorem keyBucket_parity {k : Nat} (grown : 0 < k) (key : Rope Units) :
    (keyBucket (2 ^ k) key).testBit 0 =
      ((hashString key.text 0).toNat.testBit 0 ^^ (keyTag key).toNat.testBit 0) := by
  rw [keyBucket, mapHashKey, hashStringRope_eq, Nat.testBit_and, UInt32.toNat_xor,
    Nat.testBit_xor, Nat.testBit_two_pow_sub_one, decide_eq_true grown, Bool.and_true]

theorem keyBucket_iff {op1 op2 : Rope Units} (text : op1.text = op2.text) {k : Nat}
    (grown : 0 < k) :
    keyBucket (2 ^ k) op1 = keyBucket (2 ^ k) op2 ↔ (op1.IsStr ↔ op2.IsStr) := by
  constructor
  · intro eq
    have both := keyBucket_parity grown op1
    rw [eq, keyBucket_parity grown op2, text, Bool.xor_right_inj] at both
    rw [← keyTag_parity, ← keyTag_parity, both]
  · intro both
    rw [keyBucket, keyBucket, mapHashKey, mapHashKey, hashStringRope_eq, hashStringRope_eq, text,
      keyTag_eq both]

/-- A map whose keys are strings looks for a rope in the bucket of its text only if that is a
string too. -/
theorem bucketOf_stringKeys (key : Rope Units) {k : Nat} (grown : 0 < k) :
    Maps.bucketOf stringKeys (2 ^ k) key.text = keyBucket (2 ^ k) key ↔ key.IsStr := by
  have text : (Rope.str key.text).text = key.text := rfl
  exact (keyBucket_iff text grown).trans (iff_true_left trivial)

/-- A string and a rope with its text are the same key, and one is never found where the other is
put, once the table has more than one bucket. -/
theorem sameValueZero_bucket {op1 op2 : Rope Units} {p : Units} (h1 : Made op1 p)
    (h2 : Made op2 p) {k : Nat} (grown : 0 < k) :
    (∃ bound, ∀ rounds, bound ≤ rounds → sameValueZero rounds op1 op2 = some true) ∧
      (keyBucket (2 ^ k) op1 = keyBucket (2 ^ k) op2 ↔ (op1.IsStr ↔ op2.IsStr)) := by
  obtain ⟨bound, same⟩ := sameValueZero_spec h1 h2
  refine ⟨⟨bound, fun rounds enough => ?_⟩, keyBucket_iff ?_ grown⟩
  · rw [same rounds enough, decide_eq_true rfl]
  · rw [h1.valid.2, h2.valid.2]

theorem sameValueZero_bucket_letters :
    keyBucket (2 ^ 2) (.str (spell shortPair).text) ≠ keyBucket (2 ^ 2) (spell shortPair) :=
  fun eq => ((sameValueZero_bucket made_shortPair.flat made_shortPair
    (Nat.zero_lt_succ 1)).2.mp eq).mp trivial

end Ropes
