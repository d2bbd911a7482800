import Goqjs.RopeLengths

/-!
# Ropes that scripts make

The ropes that come out of concatenations and linearizations, in any order and with any of them
shared: their texts, their depths, and what the iterator reads from them.
-/

namespace Ropes

open JSString Rope Outcomes

variable {σ : Type} [JSString σ]

section
variable {n d : Nat} {l r : Rope σ} (h : (rope n d l r).Sound)
include h

theorem Rope.Sound.left : l.Sound := h.2.2.2.2.1

theorem Rope.Sound.right : r.Sound := h.2.2.2.2.2

theorem Rope.Sound.pos : 0 < n := h.2.1

end

/-- What `JS_ConcatString` hands to `js_new_string_rope`, if it calls that. -/
def ropeOperands (op1 op2 : Rope σ) : Option (Rope σ × Rope σ) :=
  match op2 with
  | .str p2 =>
    if JSString.len p2 = 0 then none
    else if JSString.len p2 ≤ ropeShortLen then
      match op1 with
      | .str p1 => if JSString.len p1 ≤ ropeShort2Len then none else some (op1, op2)
      | .rope _ _ left (.str q) =>
        if JSString.len q ≤ ropeShortLen then some (left, .str (concat q p2))
        else some (op1, op2)
      | .rope _ _ _ (.rope _ _ _ _) => some (op1, op2)
    else some (op1, op2)
  | .rope _ _ left right =>
    match op1 with
    | .str p1 =>
      if JSString.len p1 = 0 then none
      else
        match left with
        | .str q =>
          if JSString.len q ≤ ropeShortLen then some (.str (concat p1 q), right)
          else some (op1, op2)
        | .rope _ _ _ _ => some (op1, op2)
    | .rope _ _ _ _ => some (op1, op2)

/-- What a concatenation does: it answers at once, or it joins two ropes with the same text. -/
inductive Calls (op1 op2 : Rope σ) : Prop where
  | answers (c : Except Stop (Rope σ)) (ends : c ≠ .error .nesting)
    (result : Result (concat op1.text op2.text) c) (none : ropeOperands op1 op2 = none)
    (eq : ∀ nesting, concatString nesting op1 op2 = c)
  | tooLong (long : stringLenMax < JSString.len (concat op1.text op2.text))
    (eq : ∀ nesting, concatString nesting op1 op2 = .error .tooLong)
  | joins (a b : Rope σ) (sound : (node a b).Sound)
    (text : concat a.text b.text = concat op1.text op2.text)
    (some : ropeOperands op1 op2 = some (a, b))
    (eq : ∀ nesting, concatString nesting op1 op2 = newStringRope nesting a b)

theorem concatString2_ok {p q : σ} (fits : JSString.len (concat p q) ≤ stringLenMax) :
    concatString2 p q = .ok (.str (concat p q)) := by
  rw [concatString2]
  split
  · rename_i none
    rw [eq_empty.mp none, concat_empty]
  · rw [if_neg (by rw [← len_concat]; exact Nat.not_lt.mpr fits)]

theorem concatString2_long {p q : σ} (short : JSString.len p ≤ stringLenMax)
    (long : stringLenMax < JSString.len (concat p q)) : concatString2 p q = .error .tooLong := by
  rw [len_concat] at long
  rw [concatString2, if_neg (by omega), if_pos long]

/-- Short strings are never too long together. -/
theorem short_fits {p q : σ} (hp : JSString.len p ≤ ropeShort2Len)
    (hq : JSString.len q ≤ ropeShortLen) : JSString.len (concat p q) ≤ stringLenMax := by
  have room : ropeShort2Len + ropeShortLen ≤ stringLenMax := by decide
  rw [len_concat]
  omega

section
variable {op1 op2 : Rope σ} (v1 : op1.Valid) (v2 : op2.Valid)
include v1 v2

theorem concatString_str {p2 : σ} (is_str : op2 = .str p2) : Calls op1 op2 := by
  subst is_str
  by_cases text : JSString.len p2 = 0
  · refine .answers (.ok op1) ok_ne ⟨v1, ?_⟩ ?_ fun nesting => ?_
    · rw [show (Rope.str p2).text = empty from eq_empty.mp text, concat_empty]
    · simp only [ropeOperands, if_pos text]
    · simp only [concatString, if_pos text]
  have pos : 0 < JSString.len p2 := Nat.pos_of_ne_zero text
  have joined : (node op1 (.str p2)).Sound :=
    v1.sound.node trivial (Nat.add_pos_right _ pos) fun none => absurd none text
  by_cases short : JSString.len p2 ≤ ropeShortLen
  · cases op1 with
    | str p1 =>
      by_cases small : JSString.len p1 ≤ ropeShort2Len
      · have fits : JSString.len (concat p1 p2) ≤ stringLenMax := short_fits small short
        refine .answers (.ok (.str (concat p1 p2))) ok_ne ⟨.str fits, rfl⟩ ?_ fun nesting => ?_
        · simp only [ropeOperands, if_neg text, if_pos short, if_pos small]
        · simp only [concatString, if_neg text, if_pos short, if_pos small]
          exact concatString2_ok fits
      · refine .joins _ _ joined rfl ?_ fun nesting => ?_
        · simp only [ropeOperands, if_neg text, if_pos short, if_neg small]
        · simp only [concatString, if_neg text, if_pos short, if_neg small]
    | rope n d left right =>
      cases right with
      | rope n' d' l r =>
        refine .joins _ _ joined rfl ?_ fun nesting => ?_
        · simp only [ropeOperands, if_neg text, if_pos short]
        · simp only [concatString, if_neg text, if_pos short]
      | str q =>
        by_cases small : JSString.len q ≤ ropeShortLen
        · have small2 : JSString.len q ≤ ropeShort2Len := Nat.le_trans small (by decide)
          have fits : JSString.len (concat q p2) ≤ stringLenMax := short_fits small2 short
          have longer : 0 < JSString.len (concat q p2) := by
            rw [len_concat]
            exact Nat.add_pos_right _ pos
          refine .joins left (.str (concat q p2)) ?_ ?_ ?_ fun nesting => ?_
          · exact v1.sound.left.node trivial (Nat.add_pos_right _ longer) fun none =>
              absurd none (Nat.ne_of_gt longer)
          · exact (concat_assoc _ _ _).symm
          · simp only [ropeOperands, if_neg text, if_pos short, if_pos small]
          · simp only [concatString, if_neg text, if_pos short, if_pos small]
            rw [concatString2_ok fits]
            rfl
        · refine .joins _ _ joined rfl ?_ fun nesting => ?_
          · simp only [ropeOperands, if_neg text, if_pos short, if_neg small]
          · simp only [concatString, if_neg text, if_pos short, if_neg small]
  · refine .joins _ _ joined rfl ?_ fun nesting => ?_
    · simp only [ropeOperands, if_neg text, if_neg short]
    · simp only [concatString, if_neg text, if_neg short]

theorem concatString_rope {n d : Nat} {left right : Rope σ}
    (is_rope : op2 = .rope n d left right) : Calls op1 op2 := by
  subst is_rope
  have pos : 0 < n := v2.sound.pos
  have joined : (node op1 (.rope n d left right)).Sound :=
    v1.sound.node v2.sound (Nat.add_pos_right _ pos) fun none => absurd none (Nat.ne_of_gt pos)
  cases op1 with
  | rope n' d' l r => exact .joins _ _ joined rfl rfl fun _ => rfl
  | str p1 =>
    by_cases text : JSString.len p1 = 0
    · refine .answers (.ok (.rope n d left right)) ok_ne ⟨v2, ?_⟩ ?_ fun nesting => ?_
      · rw [show (Rope.str p1).text = empty from eq_empty.mp text, empty_concat]
      · simp only [ropeOperands, if_pos text]
      · simp only [concatString, if_pos text]
    cases left with
    | rope n' d' l r =>
      refine .joins _ _ joined rfl ?_ fun nesting => ?_
      · simp only [ropeOperands, if_neg text]
      · simp only [concatString, if_neg text]
    | str q =>
      by_cases small : JSString.len q ≤ ropeShortLen
      · rcases Nat.lt_or_ge stringLenMax (JSString.len (concat p1 q)) with long | fits
        · refine .tooLong ?_ fun nesting => ?_
          · refine Nat.lt_of_lt_of_le long ?_
            change _ ≤ JSString.len (concat p1 (concat q right.text))
            rw [← concat_assoc, len_concat _ right.text]
            exact Nat.le_add_right _ _
          · simp only [concatString, if_neg text, if_pos small]
            rw [concatString2_long v1.short long]
            rfl
        · have longer : 0 < JSString.len (concat p1 q) := by
            rw [len_concat]
            exact Nat.add_pos_left (Nat.pos_of_ne_zero text) _
          refine .joins (.str (concat p1 q)) right ?_ ?_ ?_ fun nesting => ?_
          · exact Sound.node trivial v2.sound.right (Nat.add_pos_left longer _) fun _ => trivial
          · exact concat_assoc _ _ _
          · simp only [ropeOperands, if_neg text, if_pos small]
          · simp only [concatString, if_neg text, if_pos small]
            rw [concatString2_ok fits]
            rfl
      · refine .joins _ _ joined rfl ?_ fun nesting => ?_
        · simp only [ropeOperands, if_neg text, if_neg small]
        · simp only [concatString, if_neg text, if_neg small]

theorem concatString_calls : Calls op1 op2 := by
  cases eq : op2 with
  | str p2 => exact eq ▸ concatString_str v1 v2 eq
  | rope n d left right => exact eq ▸ concatString_rope v1 v2 eq

/-- A concatenation has the text of both sides, or it throws since that is too long, or it is cut
off. -/
theorem concatString_result (nesting : Nat) :
    Result (concat op1.text op2.text) (concatString nesting op1 op2) := by
  cases concatString_calls v1 v2 with
  | answers c ends result none eq =>
    rw [eq]
    exact result
  | tooLong long eq =>
    rw [eq]
    exact long
  | joins a b sound text some eq =>
    rw [eq, ← text]
    exact newStringRope_result sound nesting

end

theorem isLinearized_iff {n d : Nat} {left right : Rope σ} (sound : (rope n d left right).Sound) :
    isLinearized (.rope n d left right) = true → ∃ p q, left = .str p ∧ right = .str q ∧
      JSString.len q = 0 := by
  intro done
  cases right with
  | rope n' d' l r => cases done
  | str q =>
    have none : JSString.len q = 0 := by simpa [isLinearized] using done
    cases left with
    | str p => exact ⟨p, q, rfl, rfl, none⟩
    | rope n' d' l r => exact (sound.2.2.2.1 none).elim

/-- Linearizing gives a string, and that is the text of the rope. -/
theorem linearizeStringRope_str {r : Rope σ} (sound : r.Sound) (shared : Bool) :
    (linearizeStringRope shared r).1 = .str r.text := by
  cases r with
  | str p => rfl
  | rope n d left right =>
    rw [linearizeStringRope]
    split
    · obtain ⟨p, q, rfl, rfl, none⟩ := isLinearized_iff sound ‹_›
      rw [Rope.text, Rope.text, Rope.text, eq_empty.mp none, concat_empty]
    · cases shared <;> rfl

/-- `js_linearize_string_rope` on any rope inside another, which may be shared. -/
inductive Linearized : Rope σ → Rope σ → Prop where
  | here (r : Rope σ) (shared : Bool) : Linearized r (linearizeStringRope shared r).2
  | left (n d : Nat) {l l' : Rope σ} (r : Rope σ) (inside : Linearized l l') :
    Linearized (.rope n d l r) (.rope n d l' r)
  | right (n d : Nat) (l : Rope σ) {r r' : Rope σ} (inside : Linearized r r') :
    Linearized (.rope n d l r) (.rope n d l r')

/-- What another rope can see of one, apart from its parts. -/
structure SeenAlike (r r' : Rope σ) : Prop where
  sound : r'.Sound
  len : r'.len = r.len
  depth : r'.depth = r.depth
  text : r'.text = r.text
  isStr : r.IsStr → r'.IsStr

theorem linearizeStringRope_alike {r : Rope σ} (sound : r.Sound) (shared : Bool) :
    SeenAlike r (linearizeStringRope shared r).2 := by
  cases r with
  | str p => exact ⟨trivial, rfl, rfl, rfl, id⟩
  | rope n d left right =>
    rw [linearizeStringRope]
    split
    · exact ⟨sound, rfl, rfl, rfl, id⟩
    · cases shared with
      | false => exact ⟨sound, rfl, rfl, rfl, id⟩
      | true =>
        have nothing : JSString.len (empty : σ) = 0 := eq_empty.mpr rfl
        have length := len_text sound
        obtain ⟨-, pos, deep, -⟩ := sound
        refine ⟨⟨?_, pos, Nat.lt_of_le_of_lt (Nat.zero_le _) deep, fun _ => trivial, trivial,
          trivial⟩, rfl, rfl, concat_empty _, id⟩
        change n = JSString.len _ + JSString.len (empty : σ)
        rw [nothing, length]
        rfl

theorem Linearized.alike {r r' : Rope σ} (h : Linearized r r') (sound : r.Sound) :
    SeenAlike r r' := by
  induction h with
  | here r shared => exact linearizeStringRope_alike sound shared
  | left n d r inside ih =>
    obtain ⟨sum, pos, deep, more, sl, sr⟩ := sound
    obtain ⟨sound, len, depth, text, isStr⟩ := ih sl
    refine ⟨⟨?_, pos, ?_, fun none => isStr (more none), sound, sr⟩, rfl, rfl, ?_, id⟩
    · rw [len, sum]
    · rw [depth]
      exact deep
    · rw [Rope.text, text, Rope.text]
  | right n d l inside ih =>
    obtain ⟨sum, pos, deep, more, sl, sr⟩ := sound
    obtain ⟨sound, len, depth, text, -⟩ := ih sr
    refine ⟨⟨?_, pos, ?_, fun none => more (len ▸ none), sl, sound⟩, rfl, rfl, ?_, id⟩
    · rw [len, sum]
    · rw [depth]
      exact deep
    · rw [Rope.text, text, Rope.text]

/-- The strings and ropes that scripts can make, and their texts. -/
inductive Made : Rope σ → σ → Prop where
  | str {p : σ} (short : JSString.len p ≤ stringLenMax) : Made (.str p) p
  | concat {op1 op2 r : Rope σ} {p q : σ} (nesting : Nat) (h1 : Made op1 p) (h2 : Made op2 q)
    (done : concatString nesting op1 op2 = .ok r) : Made r (concat p q)
  | linearize {r r' : Rope σ} {p : σ} (h : Made r p) (inside : Linearized r r') : Made r' p

theorem Made.valid {r : Rope σ} {p : σ} (h : Made r p) : r.Valid ∧ r.text = p := by
  induction h with
  | str short => exact ⟨.str short, rfl⟩
  | concat nesting h1 h2 done ih1 ih2 =>
    have result := concatString_result ih1.1 ih2.1 nesting
    rw [done, ih1.2, ih2.2] at result
    exact result
  | linearize h inside ih =>
    obtain ⟨sound, len, depth, text, -⟩ := inside.alike ih.1.sound
    exact ⟨⟨sound, len ▸ ih.1.short, depth ▸ ih.1.shallow⟩, text.trans ih.2⟩

/-- The text as a string of its own. -/
theorem Made.flat {r : Rope σ} {p : σ} (h : Made r p) : Made (.str p) p := by
  refine .str ?_
  rw [← h.valid.2, len_text h.valid.1.sound]
  exact h.valid.1.short

/-- A rope over strings of these lengths. -/
def spell : Rope Nat → Rope (List UInt16)
  | .str n => .str (List.replicate n 97)
  | .rope n d l r => .rope n d (spell l) (spell r)

theorem lengths_spell (r : Rope Nat) : (spell r).lengths = r := by
  induction r with
  | str n => exact congrArg Rope.str List.length_replicate
  | rope n d l r ihl ihr => rw [spell, lengths, ihl, ihr]

theorem len_spell (r : Rope Nat) : (spell r).len = r.len := by
  rw [← len_lengths, lengths_spell]

theorem depth_spell (r : Rope Nat) : (spell r).depth = r.depth := by
  rw [← depth_lengths, lengths_spell]

theorem lengths_self (r : Rope Nat) : r.lengths = r := by
  induction r with
  | str n => rfl
  | rope n d l r ihl ihr => rw [lengths, ihl, ihr]

theorem staysShallow_spell (a b : Rope Nat) :
    staysShallow (spell a) (spell b) = staysShallow a b := by
  simp only [staysShallow, lengths_spell, lengths_self, depth_node, depth_spell]
  rfl

/-- `JS_ConcatString` joins these two without copying. -/
def joins : Rope Nat → Rope Nat → Bool
  | .str p, .str q => (p != 0) && (ropeShortLen < q)
  | .rope _ _ _ (.str p), .str q => (q != 0) && (ropeShortLen < p || ropeShortLen < q)
  | .rope _ _ _ (.rope _ _ _ _), .str q => q != 0
  | .str p, .rope _ _ (.rope _ _ _ _) _ => p != 0
  | .str _, .rope _ _ (.str _) _ => false
  | .rope _ _ _ _, .rope _ _ _ _ => true

/-- Every part of this rope comes from a join that copies nothing and stays shallow. -/
def joinable : Rope Nat → Bool
  | .str n => n ≤ stringLenMax
  | .rope n d l r =>
    joinable l && joinable r && joins l r && (Rope.rope n d l r = node l r) &&
      (n ≤ stringLenMax) && (d ≤ ropeMaxDepth)

theorem concatString_spell {a b : Rope Nat} (h : joins a b = true) (nesting : Nat) :
    concatString nesting (spell a) (spell b) = newStringRope nesting (spell a) (spell b) := by
  have length (n : Nat) : JSString.len (List.replicate n (97 : UInt16)) = n :=
    List.length_replicate
  cases b with
  | str q =>
    cases a with
    | str p =>
      simp only [joins, Bool.and_eq_true, bne_iff_ne, decide_eq_true_iff] at h
      have long : ¬q ≤ ropeShortLen := Nat.not_le.mpr h.2
      have text : q ≠ 0 := by omega
      simp only [spell, concatString, length, if_neg text, if_neg long]
    | rope n d l r =>
      cases r with
      | rope n' d' l' r' =>
        have text : q ≠ 0 := by simpa [joins] using h
        simp only [spell, concatString, length, if_neg text, ite_self]
      | str p =>
        simp only [joins, Bool.and_eq_true, Bool.or_eq_true, bne_iff_ne, decide_eq_true_iff] at h
        simp only [spell, concatString, length, if_neg h.1]
        split
        · have long : ¬p ≤ ropeShortLen := by omega
          rw [if_neg long]
        · rfl
  | rope n d l r =>
    cases a with
    | rope n' d' l' r' => rfl
    | str p =>
      cases l with
      | str q => cases h
      | rope n' d' l' r' =>
        have text : p ≠ 0 := by simpa [joins] using h
        simp only [spell, concatString, length, if_neg text]

theorem made_spell {r : Rope Nat} (h : joinable r = true) : Made (spell r) (spell r).text := by
  induction r with
  | str n => exact .str (by simpa [joinable, JSString.len] using h)
  | rope n d l r ihl ihr =>
    simp only [joinable, Bool.and_eq_true, decide_eq_true_iff] at h
    obtain ⟨⟨⟨⟨⟨hl, hr⟩, direct⟩, eq⟩, short⟩, shallow⟩ := h
    refine .concat 1 (ihl hl) (ihr hr) ?_
    have sum : n = l.len + r.len := congrArg Rope.len eq
    have deep : d = max l.depth r.depth + 1 := congrArg Rope.depth eq
    have shallow' : ¬ropeMaxDepth < (node (spell l) (spell r)).depth := by
      rw [depth_node, depth_spell, depth_spell, ← deep]
      exact Nat.not_lt.mpr shallow
    have same : node (spell l) (spell r) = spell (.rope n d l r) := by
      rw [node, len_spell, len_spell, depth_spell, depth_spell, ← sum, ← deep]
      rfl
    rw [concatString_spell direct, newStringRope, len_spell, len_spell, ← sum,
      if_neg (Nat.not_lt.mpr short), if_neg shallow', same]

/-- A string of one unit and one of 513. -/
def shortPair : Rope Nat := node (.str 1) (.str 513)

theorem made_shortPair : Made (spell shortPair) (spell shortPair).text := made_spell rfl

theorem text_shortPair : (spell shortPair).text = List.replicate 514 97 :=
  List.replicate_append_replicate

/-- A concatenation of what scripts make ends exactly if its text is too long, or it joins nothing,
or what it joins stays shallow. -/
theorem concatString_ends_iff {op1 op2 : Rope σ} {p q : σ} (h1 : Made op1 p) (h2 : Made op2 q) :
    (∃ nesting, concatString nesting op1 op2 ≠ .error .nesting) ↔
      stringLenMax < JSString.len p + JSString.len q ∨
        ∀ a b, ropeOperands op1 op2 = some (a, b) → staysShallow a b = true := by
  obtain ⟨v1, text1⟩ := h1.valid
  obtain ⟨v2, text2⟩ := h2.valid
  rw [← len_concat]
  cases concatString_calls v1 v2 with
  | answers c ends result none eq =>
    refine iff_of_true ⟨0, (eq 0).symm ▸ ends⟩ (.inr fun a b some => ?_)
    rw [none] at some
    cases some
  | tooLong long eq =>
    rw [text1, text2] at long
    refine iff_of_true ⟨0, ?_⟩ (.inl long)
    rw [eq]
    exact fun off => by cases off
  | joins a b sound text some eq =>
    have length : a.len + b.len = JSString.len (concat p q) := by
      rw [← text1, ← text2, ← text, len_concat, len_text sound.left, len_text sound.right]
    have ends := newStringRope_ends_iff sound
    rw [length] at ends
    refine Iff.trans (by simp only [eq]) (ends.trans (or_congr_right ⟨?_, fun h => h a b some⟩))
    intro shallow a' b' some'
    rw [some] at some'
    cases some'
    exact shallow

theorem concatString_ends_iff_pair :
    ∃ nesting, concatString nesting (spell shortPair) (spell shortPair) ≠ .error .nesting := by
  refine (concatString_ends_iff made_shortPair made_shortPair).mpr (.inr ?_)
  intro a b joined
  cases joined
  rw [staysShallow_spell]
  decide

/-- A stack of ropes with room for what is below each of them. -/
def Fits : List (Rope σ) → Prop
  | [] => True
  | val :: stack => val.depth + stack.length ≤ ropeMaxDepth ∧ val.Sound ∧ Fits stack

theorem descend_spec {val : Rope σ} {stack : List (Rope σ)} (fits : Fits (val :: stack)) :
    ∃ p rest, descend val stack = some (p, rest) ∧ Fits rest ∧
      val.leaves ++ stack.flatMap leaves = p :: rest.flatMap leaves := by
  induction val generalizing stack with
  | str p => exact ⟨p, stack, rfl, fits.2.2, rfl⟩
  | rope n d left right ihl ihr =>
    obtain ⟨room, sound, below⟩ := fits
    obtain ⟨-, -, deep, -, sl, sr⟩ := sound
    have room : d + stack.length ≤ ropeMaxDepth := room
    have pushed : Fits (left :: right :: stack) := by
      refine ⟨?_, sl, ?_, sr, below⟩
      · rw [List.length_cons]
        omega
      · omega
    obtain ⟨p, rest, down, fits, leaves⟩ := ihl pushed
    refine ⟨p, rest, ?_, fits, ?_⟩
    · rw [descend, if_pos (by omega)]
      exact down
    · rw [← leaves, Rope.leaves, List.flatMap_cons, List.append_assoc]

theorem iterTake_spec {stack : List (Rope σ)} (fits : Fits stack) (n : Nat) :
    iterTake n stack = some ((List.range n).map fun i => (stack.flatMap leaves)[i]?) := by
  induction n generalizing stack with
  | zero => rfl
  | succ n ih =>
    rw [List.range_succ_eq_map, List.map_cons, List.map_map, iterTake]
    cases stack with
    | nil =>
      rw [iterNext, Option.bind_some, ih fits]
      rfl
    | cons val stack =>
      obtain ⟨p, rest, down, fits, leaves⟩ := descend_spec fits
      rw [iterNext, down, Option.map_some, Option.bind_some, ih fits, List.flatMap_cons, leaves]
      rfl

/-- What scripts make has its text in every way it is read, the iterator never needs more room than
its stack has, and concatenating it gives the text of both sides unless that is too long. -/
theorem made_exact {r : Rope σ} {p : σ} (h : Made r p) :
    r.len = JSString.len p ∧ r.len ≤ stringLenMax ∧ r.depth ≤ ropeMaxDepth ∧
      (∀ shared, (linearizeStringRope shared r).1 = .str p) ∧
      (∃ ps, textOf ps = p ∧ ∀ n, iterTake n [r] = some ((List.range n).map fun i => ps[i]?)) ∧
      ∀ r' q nesting, Made r' q → Result (concat p q) (concatString nesting r r') := by
  obtain ⟨⟨sound, short, shallow⟩, text⟩ := h.valid
  refine ⟨?_, short, shallow, fun shared => ?_, ⟨r.leaves, ?_, fun n => ?_⟩, ?_⟩
  · rw [← text, len_text sound]
  · rw [linearizeStringRope_str sound, text]
  · rw [← text_eq, text]
  · have alone : Fits [r] := ⟨shallow, sound, trivial⟩
    rw [iterTake_spec alone, List.flatMap_singleton]
  · intro r' q nesting h'
    have result := concatString_result h.valid.1 h'.valid.1 nesting
    rwa [text, h'.valid.2] at result

theorem made_exact_pair :
    (spell shortPair).len = 514 ∧
      (∀ shared, (linearizeStringRope shared (spell shortPair)).1 = .str (List.replicate 514 97)) ∧
      (∃ ps, textOf ps = List.replicate 514 97 ∧
        ∀ n, iterTake n [spell shortPair] = some ((List.range n).map fun i => ps[i]?)) ∧
      ∀ nesting, Result (concat (List.replicate 514 (97 : UInt16)) [98])
        (concatString nesting (spell shortPair) (.str [98])) := by
  have length : (spell shortPair).len = 514 := len_spell shortPair
  have made := made_shortPair
  rw [text_shortPair] at made
  generalize spell shortPair = r at length made ⊢
  obtain ⟨-, -, -, linear, read, joined⟩ := made_exact made
  exact ⟨length, linear, read, fun nesting => joined _ _ nesting (.str (by decide))⟩

end Ropes
