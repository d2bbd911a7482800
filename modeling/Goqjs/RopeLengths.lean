import Goqjs.RopeBounds

/-!
# Lengths decide

What a rebalancing does depends on the lengths of the strings alone, and lengths can be computed
with. With the bounds of a rebalancing this says when a join of two ropes ends.
-/

namespace Ropes

open JSString Rope Outcomes

variable {σ : Type} [JSString σ]

/-- The rope with lengths in the place of the strings. -/
def Rope.lengths : Rope σ → Rope Nat
  | str p => str (JSString.len p)
  | rope n d l r => rope n d l.lengths r.lengths

@[simp] theorem len_lengths (r : Rope σ) : r.lengths.len = r.len := by
  cases r <;> rfl

@[simp] theorem depth_lengths (r : Rope σ) : r.lengths.depth = r.depth := by
  cases r <;> rfl

theorem lengths_node (a b : Rope σ) : (node a b).lengths = node a.lengths b.lengths := by
  simp [node, lengths]

def lengthsOf (buckets : Buckets σ) : Buckets Nat := buckets.map (Option.map lengths)

theorem shallowJoin_lengths (a b : Rope σ) :
    shallowJoin a.lengths b.lengths = (shallowJoin a b).map lengths := by
  rw [shallowJoin, shallowJoin, ← lengths_node]
  simp only [len_lengths, depth_lengths]
  split
  · rfl
  · split <;> rfl

theorem gatherOne_lengths (b a : Option (Rope σ)) :
    gatherOne shallowJoin (b.map lengths) (a.map lengths) =
      (gatherOne shallowJoin b a).map (Option.map lengths) := by
  cases b with
  | none => rfl
  | some b =>
    cases a with
    | none => rfl
    | some a => exact map_commutes (shallowJoin_lengths b a) fun _ => rfl

theorem putBehind_lengths (val : Rope σ) (a : Option (Rope σ)) :
    putBehind shallowJoin val.lengths (a.map lengths) =
      (putBehind shallowJoin val a).map lengths := by
  cases a with
  | none => rfl
  | some a => exact shallowJoin_lengths a val

theorem settle_lengths (buckets : Buckets σ) (a : Rope σ) :
    settle shallowJoin (lengthsOf buckets) a.lengths =
      (settle shallowJoin buckets a).map lengthsOf := by
  induction buckets generalizing a with
  | nil => rfl
  | cons b buckets ih =>
    cases b with
    | none => rfl
    | some b =>
      refine bind_commutes (shallowJoin_lengths b a) fun a => ?_
      exact map_commutes (ih a) fun _ => rfl

theorem sink_lengths (val : Rope σ) (bounds : List Nat) (buckets : Buckets σ)
    (a : Option (Rope σ)) :
    sink shallowJoin val.lengths bounds (lengthsOf buckets) (a.map lengths) =
      (sink shallowJoin val bounds buckets a).map lengthsOf := by
  induction bounds generalizing buckets a with
  | nil => rfl
  | cons bound bounds ih =>
    cases buckets with
    | nil => rfl
    | cons b buckets =>
      change sink _ _ _ (b.map lengths :: lengthsOf buckets) _ = _
      rw [sink, sink, len_lengths]
      split
      · refine bind_commutes (gatherOne_lengths b a) fun a => ?_
        exact map_commutes (ih buckets a) fun _ => rfl
      · exact bind_commutes (putBehind_lengths val a) fun a => settle_lengths (b :: buckets) a

theorem insert_lengths (buckets : Buckets σ) (p : σ) :
    insert shallowJoin (lengthsOf buckets) (JSString.len p) =
      (insert shallowJoin buckets p).map lengthsOf := by
  rw [insert, insert]
  change (if JSString.len p = 0 then _ else _) = _
  split
  · rfl
  · exact sink_lengths (.str p) _ buckets none

theorem rebalanceStringRopeRec_lengths (buckets : Buckets σ) (rope : Rope σ) :
    rebalanceStringRopeRec shallowJoin (lengthsOf buckets) rope.lengths =
      (rebalanceStringRopeRec shallowJoin buckets rope).map lengthsOf := by
  induction rope generalizing buckets with
  | str p => exact insert_lengths buckets p
  | rope n d l r ihl ihr => exact bind_commutes (ihl buckets) ihr

theorem gather_lengths (buckets : Buckets σ) (a : Option (Rope σ)) :
    gather shallowJoin (lengthsOf buckets) (a.map lengths) =
      (gather shallowJoin buckets a).map (Option.map lengths) := by
  induction buckets generalizing a with
  | nil => rfl
  | cons b buckets ih => exact bind_commutes (gatherOne_lengths b a) ih

theorem rebalanceStringRope_lengths (rope : Rope σ) :
    rebalanceStringRope shallowJoin rope.lengths =
      (rebalanceStringRope shallowJoin rope).map lengths := by
  have start : lengthsOf (noBuckets : Buckets σ) = noBuckets := List.map_replicate
  rw [rebalanceStringRope, ← start]
  refine bind_commutes (rebalanceStringRopeRec_lengths noBuckets rope) fun buckets => ?_
  refine map_commutes (gather_lengths buckets none) fun a => ?_
  cases a with
  | none => exact congrArg Rope.str (eq_empty.mpr rfl).symm
  | some r => rfl

/-- No join of the rebalancing that this join would need is too deep itself. -/
def staysShallow (op1 op2 : Rope σ) : Bool :=
  (node op1 op2).depth ≤ ropeMaxDepth ||
    (rebalanceStringRope shallowJoin (node op1.lengths op2.lengths)).isOk

theorem staysShallow_iff {op1 op2 : Rope σ} :
    staysShallow op1 op2 = true ↔ (node op1 op2).depth ≤ ropeMaxDepth ∨
      ∃ r, rebalanceStringRope shallowJoin (node op1 op2) = .ok r := by
  rw [staysShallow, ← lengths_node, rebalanceStringRope_lengths, Bool.or_eq_true,
    decide_eq_true_iff]
  cases rebalanceStringRope shallowJoin (node op1 op2) <;> simp [Except.map, Except.isOk,
    Except.toBool]

/-- What a call that joins two texts may end with. -/
def Result (text : σ) : Except Stop (Rope σ) → Prop
  | .ok r => r.Valid ∧ r.text = text
  | .error .tooLong => stringLenMax < JSString.len text
  | .error .outside => False
  | .error .nesting => True

theorem len_text {r : Rope σ} (sound : r.Sound) : JSString.len r.text = r.len := by
  induction r with
  | str p => rfl
  | rope n d l r ihl ihr =>
    obtain ⟨rfl, -, -, -, sl, sr⟩ := sound
    rw [text, len_concat, ihl sl, ihr sr]
    rfl

section
variable {op1 op2 : Rope σ} (sound : (node op1 op2).Sound)
include sound

theorem newStringRope_nests (fits : op1.len + op2.len ≤ stringLenMax)
    (deep : ¬staysShallow op1 op2 = true) (nesting : Nat) :
    newStringRope nesting op1 op2 = .error .nesting := by
  rw [staysShallow_iff, not_or] at deep
  cases nesting with
  | zero => rfl
  | succ nesting =>
    rw [newStringRope, if_neg (Nat.not_lt.mpr fits), if_pos (Nat.lt_of_not_le deep.1)]
    rcases rebalance_ends sound fits with off | ⟨r, done, -⟩
    · exact rebalance_nests off nesting
    · exact absurd ⟨r, done⟩ deep.2

omit sound in
theorem newStringRope_done (fits : op1.len + op2.len ≤ stringLenMax)
    (shallow : staysShallow op1 op2 = true) : ∃ r, newStringRope 2 op1 op2 = .ok r := by
  by_cases low : (node op1 op2).depth ≤ ropeMaxDepth
  · refine ⟨node op1 op2, ?_⟩
    rw [newStringRope, if_neg (Nat.not_lt.mpr fits), if_neg (Nat.not_lt.mpr low)]
  · obtain ⟨r, done⟩ := (staysShallow_iff.mp shallow).resolve_left low
    refine ⟨r, ?_⟩
    rw [newStringRope, if_neg (Nat.not_lt.mpr fits), if_pos (Nat.lt_of_not_le low)]
    exact rebalance_agrees done 0

theorem newStringRope_result (nesting : Nat) :
    Result (concat op1.text op2.text) (newStringRope nesting op1 op2) := by
  cases nesting with
  | zero => trivial
  | succ nesting =>
    rw [newStringRope]
    split
    · obtain ⟨-, -, -, -, s1, s2⟩ := sound
      rw [Result, len_concat, len_text s1, len_text s2]
      assumption
    · have fits : (node op1 op2).len ≤ stringLenMax := Nat.le_of_not_lt ‹_›
      split
      · rcases rebalance_ends sound fits with off | ⟨r, done, valid, -⟩
        · rw [rebalance_nests off]
          trivial
        · rcases rebalanceStringRope_follows (newStringRope_follows nesting) _ r done with
            same | ⟨-, off⟩
          · rw [same]
            exact ⟨valid, rebalance_text done⟩
          · rw [off]
            trivial
      · exact ⟨⟨sound, fits, Nat.le_of_not_lt ‹_›⟩, rfl⟩

omit sound in
theorem newStringRope_throws (long : stringLenMax < op1.len + op2.len) :
    newStringRope 1 op1 op2 ≠ .error .nesting := by
  rw [newStringRope, if_pos long]
  exact fun eq => by cases eq

/-- A join ends, with whatever bound on its nesting, exactly if it throws or stays shallow. -/
theorem newStringRope_ends_iff :
    (∃ nesting, newStringRope nesting op1 op2 ≠ .error .nesting) ↔
      stringLenMax < op1.len + op2.len ∨ staysShallow op1 op2 = true := by
  constructor
  · rintro ⟨nesting, ends⟩
    by_contra neither
    rw [not_or, Nat.not_lt] at neither
    exact ends (newStringRope_nests sound neither.1 neither.2 nesting)
  · intro either
    rcases Nat.lt_or_ge stringLenMax (op1.len + op2.len) with long | fits
    · exact ⟨1, newStringRope_throws long⟩
    · obtain ⟨r, done⟩ := newStringRope_done fits (either.resolve_left (Nat.not_lt.mpr fits))
      exact ⟨2, done ▸ ok_ne⟩

end

end Ropes
