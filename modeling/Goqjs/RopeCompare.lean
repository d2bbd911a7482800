import Goqjs.RopeRuns

/-!
# Comparing ropes

`js_string_rope_compare` reads two ropes at once, in pieces as long as both strings at hand allow.
It orders them as `js_string_compare` orders their texts.
-/

namespace Ropes

open JSString Rope

abbrev Units : Type := List UInt16

/-- `js_string_memcmp` and `js_string_memcmp_pos`: the sign. -/
def memcmp : Units → Units → Ordering
  | c :: p1, d :: p2 => (compare c d).then (memcmp p1 p2)
  | _, _ => .eq

def stringCompare (p1 p2 : Units) : Ordering :=
  (memcmp (p1.take (min p1.length p2.length)) (p2.take (min p1.length p2.length))).then
    (compare p1.length p2.length)

/-- One side of the comparison: the string at hand, which is null at the end, the place in it, and
the iterator. -/
structure Reader where
  p : Option Units
  pos : Nat
  stack : List (Rope Units)

def nextReader (stack : List (Rope Units)) : Option Reader :=
  (iterNext stack).map fun t => ⟨t.1, 0, t.2⟩

/-- `pos += l`, and the next string where this one is read. -/
def Reader.skip (s : Reader) (p : Units) (l : Nat) : Option Reader :=
  if p.length ≤ s.pos + l then nextReader s.stack else some { s with pos := s.pos + l }

/-- The loop of `js_string_rope_compare`, up to a number of rounds. -/
def compareFrom : Nat → Nat → Reader → Reader → Option Ordering
  | _, 0, _, _ => some .eq
  | 0, _ + 1, _, _ => none
  | rounds + 1, n + 1, s1, s2 =>
    match s1.p, s2.p with
    | some p1, some p2 =>
      let l := min (min (p1.length - s1.pos) (p2.length - s2.pos)) (n + 1)
      let res := memcmp ((p1.drop s1.pos).take l) ((p2.drop s2.pos).take l)
      if res = .eq then
        (s1.skip p1 l).bind fun s1 =>
          (s2.skip p2 l).bind fun s2 => compareFrom rounds (n + 1 - l) s1 s2
      else some res
    | _, _ => none

def stringRopeCompare (rounds : Nat) (eqOnly : Bool) (op1 op2 : Rope Units) : Option Ordering :=
  if eqOnly ∧ op1.len ≠ op2.len then some .gt
  else
    (nextReader [op1]).bind fun s1 =>
      (nextReader [op2]).bind fun s2 =>
        (compareFrom rounds (min op1.len op2.len) s1 s2).map fun res =>
          res.then (compare op1.len op2.len)

theorem memcmp_append {p1 p2 : Units} (q1 q2 : Units) (same : p1.length = p2.length) :
    memcmp (p1 ++ q1) (p2 ++ q2) = (memcmp p1 p2).then (memcmp q1 q2) := by
  induction p1 generalizing p2 with
  | nil =>
    cases p2 with
    | nil => rfl
    | cons d p2 => cases same
  | cons c p1 ih =>
    cases p2 with
    | nil => cases same
    | cons d p2 =>
      have same : p1.length = p2.length := Nat.succ.inj same
      rw [List.cons_append, List.cons_append, memcmp, memcmp, ih same, Ordering.then_assoc]

theorem memcmp_eq {p1 p2 : Units} (same : p1.length = p2.length) :
    memcmp p1 p2 = .eq ↔ p1 = p2 := by
  induction p1 generalizing p2 with
  | nil =>
    cases p2 with
    | nil => exact iff_of_true rfl rfl
    | cons d p2 => cases same
  | cons c p1 ih =>
    cases p2 with
    | nil => cases same
    | cons d p2 =>
      have same : p1.length = p2.length := Nat.succ.inj same
      rw [memcmp, Ordering.then_eq_eq, ih same, Std.LawfulEqOrd.compare_eq_iff_eq, List.cons.injEq]

theorem stringCompare_eq {p1 p2 : Units} : stringCompare p1 p2 = .eq ↔ p1 = p2 := by
  rw [stringCompare, Ordering.then_eq_eq, Nat.compare_eq_eq]
  constructor
  · rintro ⟨units, same⟩
    rw [memcmp_eq (by simp [same]), same, Nat.min_self, ← same, List.take_length, same,
      List.take_length] at units
    exact units
  · rintro rfl
    exact ⟨(memcmp_eq rfl).mpr rfl, rfl⟩

namespace Reader

/-- The text that is still to be read. -/
def rest (s : Reader) : Units := (s.p.getD []).drop s.pos ++ textOf (s.stack.flatMap leaves)

/-- The strings that are still to come. -/
def more (s : Reader) : Nat := (s.stack.flatMap leaves).length

structure Good (s : Reader) : Prop where
  fits : Fits s.stack
  null : s.p = none → s.stack = []

theorem Good.hand {s : Reader} (h : s.Good) (text : 0 < s.rest.length) : ∃ p, s.p = some p := by
  cases hand : s.p with
  | some p => exact ⟨p, rfl⟩
  | none =>
    have read : s.rest = [] := by
      rw [rest, hand, h.null hand, Option.getD_none, List.drop_nil]
      rfl
    rw [read] at text
    cases text

/-- The text at hand and what is to come. -/
theorem rest_eq {s : Reader} {p : Units} (hand : s.p = some p) :
    s.rest = p.drop s.pos ++ textOf (s.stack.flatMap leaves) := by
  rw [rest, hand]
  rfl

end Reader

open Reader

theorem nextReader_spec {stack : List (Rope Units)} (fits : Fits stack) :
    ∃ s, nextReader stack = some s ∧ s.Good ∧ s.rest = textOf (stack.flatMap leaves) ∧
      s.more = (stack.flatMap leaves).length - 1 := by
  cases stack with
  | nil => exact ⟨⟨none, 0, []⟩, rfl, ⟨trivial, fun _ => rfl⟩, rfl, rfl⟩
  | cons val stack =>
    obtain ⟨p, below, down, fits, strings⟩ := descend_spec fits
    refine ⟨⟨some p, 0, below⟩, ?_, ⟨fits, fun eq => by cases eq⟩, ?_, ?_⟩
    · rw [nextReader, iterNext, down]
      rfl
    · rw [List.flatMap_cons, strings]
      rfl
    · rw [List.flatMap_cons, strings]
      rfl

theorem Reader.more_pos {s : Reader} {p : Units} (hand : s.p = some p)
    (read : p.length - s.pos = 0) (text : 0 < s.rest.length) : 0 < s.more := by
  rw [rest_eq hand, List.drop_eq_nil_of_le (by omega), List.nil_append] at text
  rw [more]
  cases strings : s.stack.flatMap leaves with
  | nil =>
    rw [strings] at text
    cases text
  | cons p ps => exact Nat.succ_pos _

theorem skip_spec {s : Reader} (good : s.Good) {p : Units} (hand : s.p = some p) {l : Nat}
    (within : l ≤ p.length - s.pos) :
    ∃ s', s.skip p l = some s' ∧ s'.Good ∧ s'.rest = s.rest.drop l ∧ s'.more ≤ s.more ∧
      (p.length - s.pos = l → s'.more = s.more - 1) := by
  have there : l ≤ (p.drop s.pos).length := by rwa [List.length_drop]
  rw [skip, rest_eq hand, List.drop_append_of_le_length there, List.drop_drop]
  split
  · rename_i read
    obtain ⟨s', next, good', rest', more'⟩ := nextReader_spec good.fits
    refine ⟨s', next, good', ?_, ?_, fun _ => more'⟩
    · rw [rest', List.drop_eq_nil_of_le read]
      rfl
    · rw [more']
      exact Nat.sub_le _ _
  · rename_i unread
    refine ⟨_, rfl, ⟨good.fits, good.null⟩, rest_eq hand, Nat.le_refl _, fun whole => ?_⟩
    omega

/-- The loop compares what both sides have left, as far as it is asked to. Each round reads some
units, or one side goes on to its next string. -/
theorem compareFrom_spec {rounds len : Nat} {s1 s2 : Reader} (g1 : s1.Good) (g2 : s2.Good)
    (l1 : len ≤ s1.rest.length) (l2 : len ≤ s2.rest.length)
    (enough : len + s1.more + s2.more ≤ rounds) :
    compareFrom rounds len s1 s2 = some (memcmp (s1.rest.take len) (s2.rest.take len)) := by
  induction rounds generalizing len s1 s2 with
  | zero =>
    obtain rfl : len = 0 := by omega
    rw [List.take_zero, List.take_zero, compareFrom]
    rfl
  | succ rounds ih =>
    cases len with
    | zero =>
      rw [List.take_zero, List.take_zero, compareFrom]
      rfl
    | succ len =>
      obtain ⟨p1, hand1⟩ := g1.hand (by omega)
      obtain ⟨p2, hand2⟩ := g2.hand (by omega)
      obtain ⟨l, eq⟩ : ∃ l, min (min (p1.length - s1.pos) (p2.length - s2.pos)) (len + 1) = l :=
        ⟨_, rfl⟩
      have within1 : l ≤ p1.length - s1.pos := by omega
      have within2 : l ≤ p2.length - s2.pos := by omega
      have within : l ≤ len + 1 := by omega
      obtain ⟨s1', skip1, g1', rest1, more1, next1⟩ := skip_spec g1 hand1 within1
      obtain ⟨s2', skip2, g2', rest2, more2, next2⟩ := skip_spec g2 hand2 within2
      have units1 : (p1.drop s1.pos).take l = s1.rest.take l := by
        rw [rest_eq hand1, List.take_append_of_le_length (by rwa [List.length_drop])]
      have units2 : (p2.drop s2.pos).take l = s2.rest.take l := by
        rw [rest_eq hand2, List.take_append_of_le_length (by rwa [List.length_drop])]
      have split1 : s1.rest.take (len + 1) = s1.rest.take l ++ s1'.rest.take (len + 1 - l) := by
        rw [rest1, ← List.take_add, Nat.add_sub_cancel' within]
      have split2 : s2.rest.take (len + 1) = s2.rest.take l ++ s2'.rest.take (len + 1 - l) := by
        rw [rest2, ← List.take_add, Nat.add_sub_cancel' within]
      have same : (s1.rest.take l).length = (s2.rest.take l).length := by
        rw [List.length_take, List.length_take]
        omega
      have enough' : len + 1 - l + s1'.more + s2'.more ≤ rounds := by
        rcases Nat.eq_zero_or_pos l with rfl | pos
        · -- no unit is left of one of the two strings
          rcases Nat.eq_zero_or_pos (p1.length - s1.pos) with read | unread
          · have := next1 read
            have := more_pos hand1 read (by omega)
            omega
          · have read : p2.length - s2.pos = 0 := by omega
            have := next2 read
            have := more_pos hand2 read (by omega)
            omega
        · omega
      have l1' : len + 1 - l ≤ s1'.rest.length := by
        rw [rest1, List.length_drop]
        omega
      have l2' : len + 1 - l ≤ s2'.rest.length := by
        rw [rest2, List.length_drop]
        omega
      simp only [compareFrom, hand1, hand2, eq, units1, units2]
      rw [split1, split2, memcmp_append _ _ same]
      split
      · rename_i equal
        rw [skip1, Option.bind_some, skip2, Option.bind_some, ih g1' g2' l1' l2' enough', equal]
        rfl
      · rename_i differ
        have decided : ∀ o o' : Ordering, o ≠ .eq → o.then o' = o := by decide
        rw [decided _ _ differ]

theorem stringRopeCompare_spec {op1 op2 : Rope Units} (v1 : op1.Valid) (v2 : op2.Valid)
    {rounds : Nat}
    (enough : min op1.len op2.len + op1.leaves.length + op2.leaves.length ≤ rounds) :
    stringRopeCompare rounds false op1 op2 = some (stringCompare op1.text op2.text) := by
  have alone {op : Rope Units} (v : op.Valid) : Fits [op] := ⟨v.shallow, v.sound, trivial⟩
  obtain ⟨s1, next1, g1, rest1, more1⟩ := nextReader_spec (alone v1)
  obtain ⟨s2, next2, g2, rest2, more2⟩ := nextReader_spec (alone v2)
  have length1 : op1.text.length = op1.len := len_text v1.sound
  have length2 : op2.text.length = op2.len := len_text v2.sound
  rw [List.flatMap_singleton, ← text_eq] at rest1 rest2
  rw [List.flatMap_singleton] at more1 more2
  rw [stringRopeCompare, if_neg (fun both => Bool.false_ne_true both.1), next1, Option.bind_some,
    next2, Option.bind_some, compareFrom_spec g1 g2 (by rw [rest1]; omega) (by rw [rest2]; omega)
      (by omega), Option.map_some, rest1, rest2, stringCompare, length1, length2]

/-- Ropes are ordered as their texts are, and are equal to the engine if their texts are. -/
theorem made_compare {op1 op2 : Rope Units} {p q : Units} (h1 : Made op1 p) (h2 : Made op2 q) :
    ∃ bound, ∀ rounds, bound ≤ rounds →
      stringRopeCompare rounds false op1 op2 = some (stringCompare p q) ∧
        ∃ res, stringRopeCompare rounds true op1 op2 = some res ∧ (res = .eq ↔ p = q) := by
  obtain ⟨v1, rfl⟩ := h1.valid
  obtain ⟨v2, rfl⟩ := h2.valid
  refine ⟨min op1.len op2.len + op1.leaves.length + op2.leaves.length, fun rounds enough => ?_⟩
  have ordered := stringRopeCompare_spec v1 v2 enough
  refine ⟨ordered, ?_⟩
  by_cases same : op1.len = op2.len
  · refine ⟨_, ?_, stringCompare_eq⟩
    rw [← ordered, stringRopeCompare, stringRopeCompare, if_neg fun both => both.2 same,
      if_neg fun both => Bool.false_ne_true both.1]
  · refine ⟨.gt, if_pos ⟨rfl, same⟩, iff_of_false (fun eq => by cases eq) fun eq => same ?_⟩
    rw [← len_text v1.sound, ← len_text v2.sound, eq]

/-- A rope beside a string of the same text. -/
theorem made_compare_pair :
    ∃ bound, ∀ rounds, bound ≤ rounds →
      stringRopeCompare rounds true (spell shortPair) (.str (List.replicate 514 97)) =
        some .eq := by
  have made := made_shortPair
  rw [text_shortPair] at made
  obtain ⟨bound, compared⟩ := made_compare made made.flat
  refine ⟨bound, fun rounds enough => ?_⟩
  obtain ⟨-, res, result, alike⟩ := compared rounds enough
  rw [result, alike.mpr rfl]

end Ropes
