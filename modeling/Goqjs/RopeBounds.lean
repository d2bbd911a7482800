import Goqjs.RopeRebalancing
import Mathlib.Tactic.NormNum

/-!
# Bounds of a rebalancing

A rope that the buckets hold is at least as long as the bound of its bucket, and the last bound is
above `JS_STRING_LEN_MAX`. So the loops stay inside the array, no join throws, and what comes out
is a rope of at most the greatest depth over the same strings, the empty ones aside.
-/

namespace Ropes

open JSString Rope Outcomes

variable {σ α β : Type}

/-- What holds of the rope, if there is one. -/
def Held (P : Rope σ → Prop) (a : Option (Rope σ)) : Prop := ∀ r, a = some r → P r

theorem held_none {P : Rope σ → Prop} : Held P none := fun r eq => by cases eq

theorem held_some {P : Rope σ → Prop} {a : Rope σ} (h : P a) : Held P (some a) := by
  intro r eq
  cases eq
  exact h

variable [JSString σ]

namespace Rope

def IsStr : Rope σ → Prop
  | str _ => True
  | rope _ _ _ _ => False

/-- The length of a rope is exact and not zero, its depth an upper bound, and nothing follows on its
left side only if that is a string. -/
def Sound : Rope σ → Prop
  | str _ => True
  | rope n d l r =>
    n = l.len + r.len ∧ 0 < n ∧ max l.depth r.depth < d ∧ (r.len = 0 → l.IsStr) ∧
      l.Sound ∧ r.Sound

/-- A rope as the engine keeps it. -/
structure Valid (r : Rope σ) : Prop where
  sound : r.Sound
  short : r.len ≤ stringLenMax
  shallow : r.depth ≤ ropeMaxDepth

theorem Valid.str {p : σ} (short : JSString.len p ≤ stringLenMax) : (str p).Valid :=
  ⟨trivial, short, Nat.zero_le _⟩

theorem Sound.node {a b : Rope σ} (ha : a.Sound) (hb : b.Sound) (text : 0 < a.len + b.len)
    (more : b.len = 0 → a.IsStr) : (node a b).Sound :=
  ⟨rfl, text, Nat.lt_succ_self _, more, ha, hb⟩

/-- A rope as a bucket keeps it. -/
structure Kept (r : Rope σ) : Prop extends Valid r where
  text : 0 < r.len

theorem Sound.len_eq {r : Rope σ} (h : r.Sound) : r.len = (r.leaves.map JSString.len).sum := by
  induction r with
  | str p => simp [len, leaves]
  | rope n d l r ihl ihr =>
    obtain ⟨rfl, -, -, -, sl, sr⟩ := h
    rw [len, leaves, List.map_append, List.sum_append, ihl sl, ihr sr]

end Rope

def textOf (ps : List σ) : σ := ps.foldr concat empty

theorem textOf_append (ps qs : List σ) : textOf (ps ++ qs) = concat (textOf ps) (textOf qs) := by
  induction ps with
  | nil => exact (empty_concat _).symm
  | cons p ps ih =>
    change concat p (textOf (ps ++ qs)) = concat (concat p (textOf ps)) (textOf qs)
    rw [ih, concat_assoc]

theorem text_eq (r : Rope σ) : r.text = textOf r.leaves := by
  induction r with
  | str p => exact (concat_empty p).symm
  | rope n d l r ihl ihr => rw [text, leaves, textOf_append, ihl, ihr]

/-- The strings that a rebalancing keeps. -/
def nonempty (ps : List σ) : List σ := ps.filter fun p => JSString.len p != 0

theorem textOf_nonempty (ps : List σ) : textOf (nonempty ps) = textOf ps := by
  induction ps with
  | nil => rfl
  | cons p ps ih =>
    change _ = concat p (textOf ps)
    by_cases text : JSString.len p = 0
    · rw [nonempty, List.filter_cons_of_neg (by simp [text]), eq_empty.mp text, empty_concat]
      exact ih
    · rw [nonempty, List.filter_cons_of_pos (by simp [text])]
      exact congrArg _ ih

theorem insert_leaves {buckets buckets' : Buckets σ} {p : σ}
    (put : insert shallowJoin buckets p = .ok buckets') :
    leavesOf buckets' = leavesOf buckets ++ nonempty [p] := by
  by_cases text : JSString.len p = 0
  · rw [insert, if_pos text] at put
    cases put
    simp [nonempty, text]
  · rw [insert_eq text] at put
    obtain ⟨pre, post, r, rfl, rfl, texts, -⟩ := sink_ok put
    simp [nonempty, text, texts, leaves]

theorem insertAll_leaves {buckets buckets' : Buckets σ} {ps : List σ}
    (put : insertAll shallowJoin buckets ps = .ok buckets') :
    leavesOf buckets' = leavesOf buckets ++ nonempty ps := by
  induction ps generalizing buckets with
  | nil =>
    cases put
    simp [nonempty]
  | cons p ps ih =>
    obtain ⟨next, one, put⟩ := bind_ok.mp put
    rw [ih put, insert_leaves one, List.append_assoc, nonempty, nonempty, ← List.filter_append,
      List.singleton_append]
    rfl

theorem gather_leaves {buckets : Buckets σ} {a a' : Option (Rope σ)}
    (h : gather shallowJoin buckets a = .ok a') : leavesIn a' = leavesOf buckets ++ leavesIn a := by
  induction buckets generalizing a with
  | nil =>
    cases h
    rfl
  | cons b buckets ih =>
    obtain ⟨next, one, h⟩ := bind_ok.mp h
    rw [ih h, gatherOne_leaves one, leavesOf_cons, List.append_assoc]

theorem rebalance_text {rope r : Rope σ} (done : rebalanceStringRope shallowJoin rope = .ok r) :
    r.text = rope.text := by
  obtain ⟨buckets, strings, done⟩ := bind_ok.mp done
  obtain ⟨a, gathered, rfl⟩ := map_ok.mp done
  rw [rebalanceStringRopeRec_eq] at strings
  have kept : leavesIn a = nonempty rope.leaves := by
    rw [gather_leaves gathered, insertAll_leaves strings, noBuckets, leavesOf_replicate]
    simp
  rw [text_eq, text_eq rope, ← textOf_nonempty rope.leaves, ← kept]
  cases a with
  | none => exact concat_empty empty
  | some a => rfl

def lenIn : Option (Rope σ) → Nat
  | none => 0
  | some r => r.len

def lenOf : Buckets σ → Nat
  | [] => 0
  | b :: buckets => lenIn b + lenOf buckets

/-- Each bucket holds a rope that is at least as long as its bound. -/
def Filled : List Nat → Buckets σ → Prop
  | low :: lows, b :: buckets =>
    Held (fun r => low ≤ r.len ∧ r.Kept) b ∧ Filled lows buckets
  | [], [] => True
  | _, _ => False

/-- A bound is at most twice the one before it, and the last is above every length. -/
def Doubling : List Nat → Prop
  | [] => False
  | [last] => stringLenMax < last
  | low :: next :: lows => next ≤ 2 * low ∧ Doubling (next :: lows)

theorem doubling_ropeBucketLen : Doubling ropeBucketLen := by
  norm_num [Doubling, ropeBucketLen, stringLenMax, Nat.shiftLeft_eq]

theorem filled_noBuckets (lows : List Nat) :
    Filled lows (List.replicate lows.length (none : Option (Rope σ))) := by
  induction lows with
  | nil => trivial
  | cons low lows ih => exact ⟨held_none, ih⟩

theorem lenOf_noBuckets (n : Nat) : lenOf (List.replicate n (none : Option (Rope σ))) = 0 := by
  induction n with
  | zero => rfl
  | succ n ih =>
    rw [List.replicate_succ, lenOf, ih]
    rfl

theorem shallowJoin_ends {a b : Rope σ} (va : a.Kept) (vb : b.Kept)
    (fits : a.len + b.len ≤ stringLenMax) :
    Ends Stop.nesting (shallowJoin a b) fun r => r.Kept ∧ r.len = a.len + b.len := by
  rw [shallowJoin, if_neg (Nat.not_lt.mpr fits)]
  split
  · exact .inl rfl
  · have positive := vb.text
    refine .inr ⟨_, rfl, ⟨⟨va.sound.node vb.sound (by omega) (by omega), fits, by omega⟩, ?_⟩, rfl⟩
    rw [len_node]
    omega

theorem gatherOne_ends {b a : Option (Rope σ)} (vb : Held Kept b)
    (va : Held Kept a) (fits : lenIn b + lenIn a ≤ stringLenMax) :
    Ends Stop.nesting (gatherOne shallowJoin b a) fun a' =>
      Held Kept a' ∧ lenIn a' = lenIn b + lenIn a := by
  cases b with
  | none => exact .inr ⟨a, rfl, va, (Nat.zero_add _).symm⟩
  | some b =>
    cases a with
    | none => exact .inr ⟨some b, rfl, vb, rfl⟩
    | some a =>
      refine (shallowJoin_ends (vb b rfl) (va a rfl) fits).map ?_
      rintro r ⟨vr, eq⟩
      exact ⟨held_some vr, eq⟩

theorem putBehind_ends {val : Rope σ} {a : Option (Rope σ)} (vv : val.Kept)
    (va : Held Kept a) (fits : lenIn a + val.len ≤ stringLenMax) :
    Ends Stop.nesting (putBehind shallowJoin val a) fun a' =>
      a'.Kept ∧ a'.len = lenIn a + val.len := by
  cases a with
  | none => exact .inr ⟨val, rfl, vv, (Nat.zero_add _).symm⟩
  | some a => exact shallowJoin_ends (va a rfl) vv fits

theorem settle_ends {lows : List Nat} {low : Nat} {buckets : Buckets σ} {a : Rope σ}
    (rising : Doubling (low :: lows)) (filled : Filled (low :: lows) buckets)
    (long : low ≤ a.len) (va : a.Kept) (fits : a.len + lenOf buckets ≤ stringLenMax) :
    Ends Stop.nesting (settle shallowJoin buckets a) fun buckets' =>
      Filled (low :: lows) buckets' ∧ lenOf buckets' = a.len + lenOf buckets := by
  induction lows generalizing low buckets a with
  | nil =>
    have above : stringLenMax < low := rising
    omega
  | cons next lows ih =>
    cases buckets with
    | nil => exact filled.elim
    | cons b buckets =>
      cases b with
      | none =>
        exact .inr ⟨_, rfl, ⟨held_some ⟨long, va⟩, filled.2⟩, by simp [lenOf, lenIn]⟩
      | some b =>
        obtain ⟨longer, vb⟩ := filled.1 b rfl
        have sum : lenOf (some b :: buckets) = b.len + lenOf buckets := rfl
        have twice : next ≤ 2 * low := rising.1
        refine (shallowJoin_ends vb va (by omega)).bind ?_
        rintro a' ⟨va', eq⟩
        refine (ih rising.2 filled.2 (by omega) va' (by omega)).map ?_
        rintro rest ⟨filled', eq'⟩
        refine ⟨⟨held_none, filled'⟩, ?_⟩
        rw [sum, lenOf, lenIn, eq', eq]
        omega

theorem sink_ends {val : Rope σ} {bounds : List Nat} {low : Nat} {buckets : Buckets σ}
    {a : Option (Rope σ)} (rising : Doubling (low :: bounds))
    (filled : Filled (low :: bounds) buckets) (long : low ≤ val.len) (vv : val.Kept)
    (va : Held Kept a)
    (fits : lenIn a + val.len + lenOf buckets ≤ stringLenMax) :
    Ends Stop.nesting (sink shallowJoin val bounds buckets a) fun buckets' =>
      Filled (low :: bounds) buckets' ∧ lenOf buckets' = lenIn a + val.len + lenOf buckets := by
  induction bounds generalizing low buckets a with
  | nil =>
    have above : stringLenMax < low := rising
    omega
  | cons bound bounds ih =>
    cases buckets with
    | nil => exact filled.elim
    | cons b buckets =>
      have sum : lenOf (b :: buckets) = lenIn b + lenOf buckets := rfl
      rw [sink]
      by_cases above : bound ≤ val.len
      · rw [if_pos above]
        have vb : Held Kept b := fun r eq => (filled.1 r eq).2
        refine (gatherOne_ends vb va (by omega)).bind ?_
        rintro a' ⟨va', eq⟩
        refine (ih rising.2 filled.2 above va' (by omega)).map ?_
        rintro rest ⟨filled', eq'⟩
        refine ⟨⟨held_none, filled'⟩, ?_⟩
        rw [lenOf, lenIn, eq', sum]
        omega
      · rw [if_neg above]
        refine (putBehind_ends vv va (by omega)).bind ?_
        rintro a' ⟨va', eq⟩
        refine (settle_ends rising filled (by omega) va' (by omega)).mono ?_
        rintro rest ⟨filled', eq'⟩
        exact ⟨filled', by omega⟩

theorem insert_ends {buckets : Buckets σ} {p : σ} (filled : Filled ropeBucketLen buckets)
    (fits : JSString.len p + lenOf buckets ≤ stringLenMax) :
    Ends Stop.nesting (insert shallowJoin buckets p) fun buckets' =>
      Filled ropeBucketLen buckets' ∧ lenOf buckets' = JSString.len p + lenOf buckets := by
  by_cases text : JSString.len p = 0
  · rw [insert, if_pos text, text, Nat.zero_add]
    exact .inr ⟨buckets, rfl, filled, rfl⟩
  · rw [insert_eq text]
    have short : JSString.len p ≤ stringLenMax := by omega
    have long : 1 ≤ (Rope.str p).len := Nat.pos_of_ne_zero text
    refine (sink_ends doubling_ropeBucketLen filled long ⟨.str short, long⟩ held_none ?_).mono ?_
    · rw [lenIn, Nat.zero_add]
      exact fits
    · rintro rest ⟨filled', eq⟩
      refine ⟨filled', ?_⟩
      rw [eq, lenIn, Nat.zero_add]
      rfl

theorem insertAll_ends {buckets : Buckets σ} {ps : List σ} (filled : Filled ropeBucketLen buckets)
    (fits : (ps.map JSString.len).sum + lenOf buckets ≤ stringLenMax) :
    Ends Stop.nesting (insertAll shallowJoin buckets ps) fun buckets' =>
      Filled ropeBucketLen buckets' ∧
        lenOf buckets' = (ps.map JSString.len).sum + lenOf buckets := by
  induction ps generalizing buckets with
  | nil => exact .inr ⟨buckets, rfl, filled, (Nat.zero_add _).symm⟩
  | cons p ps ih =>
    rw [List.map_cons, List.sum_cons] at fits ⊢
    refine (insert_ends filled (by omega)).bind ?_
    rintro next ⟨filled', eq⟩
    refine (ih filled' (by omega)).mono ?_
    rintro rest ⟨filled'', eq'⟩
    exact ⟨filled'', by omega⟩

theorem gather_ends {lows : List Nat} {buckets : Buckets σ} {a : Option (Rope σ)}
    (filled : Filled lows buckets) (va : Held Kept a)
    (fits : lenOf buckets + lenIn a ≤ stringLenMax) :
    Ends Stop.nesting (gather shallowJoin buckets a) fun a' =>
      Held Kept a' ∧ lenIn a' = lenOf buckets + lenIn a := by
  induction buckets generalizing lows a with
  | nil => exact .inr ⟨a, rfl, va, (Nat.zero_add _).symm⟩
  | cons b buckets ih =>
    cases lows with
    | nil => exact filled.elim
    | cons low lows =>
      have sum : lenOf (b :: buckets) = lenIn b + lenOf buckets := rfl
      have vb : Held Kept b := fun r eq => (filled.1 r eq).2
      refine (gatherOne_ends vb va (by omega)).bind ?_
      rintro next ⟨valid, eq⟩
      refine (ih filled.2 valid (by omega)).mono ?_
      rintro a' ⟨valid', eq'⟩
      exact ⟨valid', by omega⟩

/-- A rebalancing throws nothing and stays in the array. -/
theorem rebalance_ends {rope : Rope σ} (sound : rope.Sound) (fits : rope.len ≤ stringLenMax) :
    Ends Stop.nesting (rebalanceStringRope shallowJoin rope) fun r =>
      r.Valid ∧ r.len = rope.len := by
  rw [rebalanceStringRope, rebalanceStringRopeRec_eq]
  have empties : JSString.len (empty : σ) = 0 := eq_empty.mpr rfl
  have zero : lenOf (noBuckets : Buckets σ) = 0 := lenOf_noBuckets _
  have start : Filled ropeBucketLen (noBuckets : Buckets σ) := filled_noBuckets _
  have total := sound.len_eq
  refine (insertAll_ends start (by omega)).bind ?_
  rintro buckets ⟨filled, eq⟩
  refine (gather_ends filled held_none (Nat.le_trans (Nat.le_of_eq ?_) fits)).map ?_
  · rw [eq, lenIn, zero, total, Nat.add_zero]
  · rintro a ⟨valid, eq'⟩
    rw [eq, zero, ← total] at eq'
    cases a with
    | none => exact ⟨.str (empties ▸ Nat.zero_le _), empties.trans eq'⟩
    | some r => exact ⟨(valid r rfl).toValid, eq'⟩

end Ropes
