import Goqjs.RopeRuns

/-!
# A concatenation without end

Scripts can make two texts of nine million units together whose concatenation never returns: the
lengths of the strings in it grow like the bounds of the buckets, with a short string before each,
and each of these pairs makes the rope in the buckets deeper by two.
-/

namespace Ropes

open JSString Rope

/-- Each string goes in front, and something behind so that the next one finds a rope there. -/
def wrap : List Nat → List (Rope Nat) → Rope Nat → Rope Nat
  | p :: ps, tail :: tails, r => wrap ps tails (node (.str p) (node r tail))
  | _, tails, r => tails.foldl node r

def shortStrings : List Nat := ((ropeBucketLen.take 13).drop 1).flatMap fun n => [1, n]

def longPairs : List (Rope Nat) :=
  ((ropeBucketLen.take 32).drop 14).map fun n => node (.str 1) (.str n)

def deepRope : Rope Nat :=
  wrap shortStrings.reverse (longPairs ++ List.replicate 17 (.str 513))
    (node (.str 1) (.str 610))

theorem joinable_deepRope : joinable deepRope = true := by decide +kernel

theorem joins_deepRope : joins deepRope (.str 513) = true := by decide +kernel

theorem not_staysShallow_deepRope : staysShallow deepRope (.str 513) = false := by decide +kernel

/-- `JS_ConcatString` does not return on some texts that scripts can make, though they are far
shorter than `JS_STRING_LEN_MAX`. -/
theorem concatString_never_ends :
    ∃ (op1 op2 : Rope (List UInt16)) (p q : List UInt16),
      Made op1 p ∧ Made op2 q ∧ op1.len + op2.len = 9236727 ∧
        ∀ nesting, concatString nesting op1 op2 = .error .nesting := by
  have made1 : Made (spell deepRope) (spell deepRope).text := made_spell joinable_deepRope
  have made2 : Made (spell (.str 513)) (spell (.str 513)).text := made_spell rfl
  have length : (spell deepRope).len + (spell (.str 513)).len = 9236727 := by
    rw [len_spell, len_spell]
    decide +kernel
  refine ⟨_, _, _, _, made1, made2, length, fun nesting => ?_⟩
  rw [concatString_spell joins_deepRope]
  have more : 0 < (spell (.str 513)).len := by
    rw [len_spell]
    decide
  have sound : (node (spell deepRope) (spell (.str 513))).Sound :=
    made1.valid.1.sound.node made2.valid.1.sound (Nat.add_pos_right _ more) fun none =>
      absurd none (Nat.ne_of_gt more)
  refine newStringRope_nests sound (length ▸ by decide) ?_ nesting
  rw [staysShallow_spell, not_staysShallow_deepRope]
  exact Bool.false_ne_true

end Ropes
