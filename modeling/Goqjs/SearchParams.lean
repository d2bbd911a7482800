import Goqjs.BinaryInput
import Goqjs.QueryParsers

/-!
# URLSearchParams as an ordered list

On the Web the parameters are an ordered list of pairs of strings. Here they are a map from
names to lists of values: everything a script asks about one name is as in the list, but
`toString` shows the names sorted.
-/

namespace Polyfill

open Quickjs Qjs NetUrl PairLists Percent

/-- The pairs of the Web's list; a string is its units. -/
abbrev Pairs := List (Units × Units)

inductive ParamsOp where
  | append (name value : Str)
  | set (name value : Str)
  | delete (name : Str)
  | get (name : Str)
  | has (name : Str)
  | toString

namespace ParamsOp

/-- The method of the object that holds `params`. -/
def call {O : Type} (params : Values) : ParamsOp → Call O (Effect O) (Value O)
  | append name value => paramsAppend params [.string name, .string value]
  | set name value => paramsSet params [.string name, .string value]
  | delete name => paramsDelete params [.string name]
  | get name => paramsGet params [.string name]
  | has name => paramsHas params [.string name]
  | toString => paramsToString params

/-- The Web's list after the operation. -/
def onList : ParamsOp → Pairs → Pairs
  | append name value, l => PairLists.append name.units value.units l
  | set name value, l => PairLists.set name.units value.units l
  | delete name, l => PairLists.delete name.units l
  | get _, l | has _, l | toString, l => l

end ParamsOp

/-- The parameters after a call with these effects. -/
def paramsAfter {O : Type} (params : Values) (effects : List (Effect O)) : Values :=
  effects.foldl (fun m e => match e with
    | .setParams m' => m'
    | _ => m) params

def bytesOf (u : Units) : GoString := toCStringLen (.wide u)

def unitsOf (b : GoString) : Units := (newStringLen b).units

theorem bytesOf_units (s : Str) : bytesOf s.units = toCStringLen s := toCStringLen_congr rfl

theorem unitsOf_bytesOf (u : Units) : unitsOf (bytesOf u) = u :=
  units_newStringLen_toCStringLen (.wide u)

theorem bytesOf_injective : Function.Injective bytesOf := by
  intro u v h
  have back := congrArg unitsOf h
  rwa [unitsOf_bytesOf, unitsOf_bytesOf] at back

/-- The pairs of the list as the map has them. -/
def bytePairs (l : Pairs) : List (GoString × GoString) := l.map (Prod.map bytesOf bytesOf)

def unitPairs (l : List (GoString × GoString)) : Pairs := l.map (Prod.map unitsOf unitsOf)

theorem unitPairs_bytePairs (l : Pairs) : unitPairs (bytePairs l) = l := by
  unfold unitPairs bytePairs
  rw [List.map_map]
  conv_rhs => rw [← List.map_id l]
  refine List.map_congr_left fun p _ => ?_
  exact Prod.ext (unitsOf_bytesOf p.1) (unitsOf_bytesOf p.2)

/-- The list in the order in which `toString` shows it: sorted by the UTF-8 of the names. -/
def byName (l : Pairs) : Pairs := sortByName (fun a b => Values.nameLe (bytesOf a) (bytesOf b)) l

/-- The pairs that a text shows. -/
def textPairs (s : Str) : Option Pairs := (queryPairs (toCStringLen s)).map unitPairs

section

variable {E : Engine}

/-- The map holds the list. -/
def Holds (params : Values) (l : Pairs) : Prop := params.Represents (bytePairs l)

/-- The answer of an operation when the list is `l`; `shown` is the list that `toString` shows and
that a new object made of the text holds. -/
def Answer (E : Engine) (shown : Pairs → Pairs) (l : Pairs) :
    ParamsOp → Option (Value E.Obj) → Prop
  | .append _ _, r | .set _ _, r | .delete _, r => r = some .undefined
  | .get name, r =>
    match PairLists.get name.units l with
    | none => r = some .null
    | some v => ∃ s : Str, r = some (.string s) ∧ s.units = v
  | .has name, r => r = some (.bool (PairLists.has name.units l))
  | .toString, r => ∃ s : Str, r = some (.string s) ∧ textPairs s = some (shown l) ∧
      (l.length ≤ maxParams → ∀ t : Rt E, ∃ params,
        (run E (URLSearchParams [.string s] : Call E.Obj Empty Values) t).result = some params ∧
          Holds params (shown l))

/-- Every answer of a sequence of calls is as for the list; between two calls the engine may do
anything. -/
def Follows (shown : Pairs → Pairs) : Values → Pairs → List (ParamsOp × Rt E) → Prop
  | _, _, [] => True
  | params, l, (op, s) :: rest =>
    Answer E shown l op (run E (op.call params) s).result ∧
      Follows shown (paramsAfter params (run E (op.call params) s).effects) (op.onList l) rest

theorem Holds.onList {params : Values} {l : Pairs} (h : Holds params l) (op : ParamsOp) (s : Rt E) :
    Holds (paramsAfter params (run E (op.call params) s).effects) (op.onList l) := by
  have g := bytesOf_injective
  cases op with
  | append name value =>
    have same : bytePairs (PairLists.append name.units value.units l) =
        PairLists.append (bytesOf name.units) (bytesOf value.units) (bytePairs l) := by
      simp [bytePairs, PairLists.append]
    rw [ParamsOp.onList, Holds, same, bytesOf_units, bytesOf_units]
    exact Values.Represents.add h _ _
  | set name value =>
    rw [ParamsOp.onList, Holds, bytePairs, ← set_map g bytesOf, bytesOf_units, bytesOf_units]
    exact Values.Represents.set h _ _
  | delete name =>
    rw [ParamsOp.onList, Holds, bytePairs, ← delete_map g bytesOf, bytesOf_units]
    exact Values.Represents.del h _
  | get name =>
    have none : (run E (ParamsOp.call params (.get name)) s).effects = [] := by
      simp only [ParamsOp.call, paramsGet, Call.string_bind, run_string]
      split_ifs <;> rfl
    rw [none]
    exact h
  | has name => exact h
  | toString => exact h

theorem get_bytePairs (name : Units) (l : Pairs) :
    PairLists.get (bytesOf name) (bytePairs l) = (PairLists.get name l).map bytesOf := by
  rw [PairLists.get, bytePairs, valuesOf_map bytesOf_injective, List.head?_map, PairLists.get]

theorem has_bytePairs (name : Units) (l : Pairs) :
    PairLists.has (bytesOf name) (bytePairs l) = PairLists.has name l := by
  rw [Bool.eq_iff_iff, has_iff, has_iff, bytePairs, valuesOf_map bytesOf_injective]
  simp

theorem Holds.get {params : Values} {l : Pairs} (h : Holds params l) (name : Str) (s : Rt E)
    (shown : Pairs → Pairs) :
    Answer E shown l (.get name) (run E (ParamsOp.call params (.get name)) s).result := by
  have value := h.get_eq (bytesOf name.units)
  have known := h.has_eq (bytesOf name.units)
  rw [get_bytePairs] at value
  rw [has_bytePairs] at known
  rw [bytesOf_units] at value known
  simp only [Answer, ParamsOp.call, paramsGet, Call.string_bind, run_string]
  cases first : PairLists.get name.units l with
  | none =>
    have absent : PairLists.has name.units l = false := by
      rw [Bool.eq_false_iff, Ne, has_iff]
      simpa [PairLists.get] using first
    rw [if_pos ⟨by rw [value, first]; rfl, known.trans absent⟩]
    rfl
  | some v =>
    have present : PairLists.has name.units l = true := by
      rw [has_iff]
      intro none
      rw [PairLists.get, none] at first
      cases first
    rw [if_neg fun none => absurd (known.trans present) (by simp [none.2])]
    refine ⟨newStringLen (params.get (toCStringLen name)), rfl, ?_⟩
    rw [value, first]
    exact unitsOf_bytesOf v

theorem textOf_ascii (l : List (GoString × GoString)) : ∀ c ∈ textOf l, c.toNat < 0x80 := by
  refine joinWith_ascii (by decide) fun p hp c hc => ?_
  obtain ⟨q, _, rfl⟩ := List.mem_map.mp hp
  rcases List.mem_append.mp hc with hc | hc
  · exact escape_ascii c hc
  · rcases List.mem_cons.mp hc with rfl | hc
    · decide
    · exact escape_ascii c hc

theorem toCStringLen_textOf (l : List (GoString × GoString)) :
    toCStringLen (newStringLen (textOf l)) = textOf l :=
  toCStringLen_newStringLen_ascii (textOf_ascii l)

theorem bytePairs_byName (l : Pairs) :
    bytePairs (byName l) = sortByName Values.nameLe (bytePairs l) := by
  unfold bytePairs byName sortByName
  exact List.map_mergeSort fun _ _ _ _ => rfl

theorem question_textOf (l : List (GoString × GoString)) : trimQuestion (textOf l) = textOf l := by
  have escaped {s : GoString} : ∀ c ∈ escape s .queryComponent, c ≠ question := by
    rintro c hc rfl
    rcases Coding.mem_encode hc with h | h | h | h
    · cases h
    · exact h rfl
    · cases h.2
    · exact absurd h.2 (by decide)
  have noQuestion : ∀ c ∈ textOf l, c ≠ question := by
    refine forall_mem_joinWith (by decide) fun p hp c hc => ?_
    obtain ⟨q, _, rfl⟩ := List.mem_map.mp hp
    rcases List.mem_append.mp hc with hc | hc
    · exact escaped c hc
    · rcases List.mem_cons.mp hc with rfl | hc
      · decide
      · exact escaped c hc
  exact if_neg fun first => noQuestion _ (List.mem_of_mem_head? first) rfl

/-- An object made of a text of pairs holds them. -/
theorem params_of_text {text : GoString} {l : List (GoString × GoString)}
    (read : queryPairs text = some l) (few : text.count ampersand + 1 ≤ maxParams) {s : Str}
    (bytes : trimQuestion (toCStringLen s) = text) (t : Rt E) :
    ∃ params, (run E (URLSearchParams [.string s] : Call E.Obj Empty Values) t).result =
      some params ∧ params.Represents l := by
  refine ⟨addAll [] l, ?_, Values.represents_nil.addAll l⟩
  rw [URLSearchParams_string, bytes, ParseQuery_queryPairs read few]
  rfl

/-- An object made of the text of a list holds the list again. -/
theorem parse_textOf {l : List (GoString × GoString)} (few : l.length ≤ maxParams) (t : Rt E) :
    ∃ params, (run E (URLSearchParams [.string (newStringLen (textOf l))] :
      Call E.Obj Empty Values) t).result = some params ∧ params.Represents l := by
  refine params_of_text (queryPairs_textOf l) ?_ ?_ t
  · rw [← length_pieces]
    by_cases empty : l = []
    · rw [empty]
      decide
    · rw [pieces_textOf empty, List.length_map]
      exact few
  · rw [toCStringLen_textOf, question_textOf]

theorem Holds.text {params : Values} {l : Pairs} (h : Holds params l) (s : Rt E) :
    Answer E byName l .toString (run E (ParamsOp.call params .toString) s).result := by
  have encoded : params.encode = textOf (bytePairs (byName l)) := by
    rw [Values.Represents.encode_eq h, bytePairs_byName]
  refine ⟨newStringLen params.encode, rfl, ?_, fun few t => ?_⟩
  · rw [textPairs, encoded, toCStringLen_textOf, queryPairs_textOf, Option.map_some,
      unitPairs_bytePairs]
  · rw [encoded]
    refine parse_textOf ?_ t
    rw [bytePairs, List.length_map, byName, sortByName, List.length_mergeSort]
    exact few

/-- One operation answers as the list does, `toString` with the sorted list. -/
theorem Holds.answer {params : Values} {l : Pairs} (h : Holds params l) (op : ParamsOp) (s : Rt E) :
    Answer E byName l op (run E (op.call params) s).result := by
  cases op with
  | append name value => rfl
  | set name value => rfl
  | delete name => rfl
  | get name => exact h.get name s byName
  | has name =>
    have known := h.has_eq (bytesOf name.units)
    rw [has_bytePairs, bytesOf_units] at known
    exact congrArg (fun b => some (Value.bool b)) known
  | toString => exact h.text s

/-- So does every operation of a sequence. -/
theorem Holds.follows {params : Values} {l : Pairs} (h : Holds params l)
    (ops : List (ParamsOp × Rt E)) : Follows byName params l ops := by
  induction ops generalizing params l with
  | nil => trivial
  | cons op ops ih => exact ⟨h.answer op.1 op.2, ih (h.onList op.1 op.2)⟩

/-- The list that a query text says. -/
def initialPairs (q : Str) : Pairs := unitPairs (goodPairs (pieces (trimQuestion (toCStringLen q))))

/-- No piece of the query is malformed, there are not too many, and names and values are UTF-8. -/
structure WellFormedQuery (q : Str) : Prop where
  accepted : (ParseQuery (trimQuestion (toCStringLen q))).2 = false
  utf8 : ∀ p ∈ goodPairs (pieces (trimQuestion (toCStringLen q))), WellFormed p.1 ∧ WellFormed p.2

theorem bytePairs_unitPairs {l : List (GoString × GoString)}
    (utf8 : ∀ p ∈ l, WellFormed p.1 ∧ WellFormed p.2) : bytePairs (unitPairs l) = l := by
  unfold bytePairs unitPairs
  rw [List.map_map]
  conv_rhs => rw [← List.map_id l]
  refine List.map_congr_left fun p hp => ?_
  have back {b : GoString} (h : WellFormed b) : bytesOf (unitsOf b) = b := by
    rw [unitsOf, bytesOf_units]
    exact viaString_eq_iff.mpr h
  exact Prod.ext (back (utf8 p hp).1) (back (utf8 p hp).2)

theorem holds_initialPairs {ε : Type} {q : Str} (wellFormed : WellFormedQuery q) {t : Rt E}
    {params : Values} (constructed : (run E (URLSearchParams [.string q] : Call E.Obj ε Values)
      t).result = some params) : Holds params (initialPairs q) := by
  rw [URLSearchParams_string, wellFormed.accepted] at constructed
  have same := Option.some.inj constructed
  have few : (trimQuestion (toCStringLen q)).count ampersand + 1 ≤ maxParams := by
    by_contra many
    have accepted := wellFormed.accepted
    rw [ParseQuery, if_pos (by omega)] at accepted
    cases accepted
  rw [ParseQuery_eq few] at same
  rw [Holds, initialPairs, bytePairs_unitPairs wellFormed.utf8, ← same]
  exact Values.represents_nil.addAll _

/-- The object answers every sequence of calls as the Web's list, except that `toString` shows the
pairs sorted by name, those of one name in their order. -/
theorem search_params_list {ε : Type} (q : Str) (wellFormed : WellFormedQuery q) (t : Rt E)
    (params : Values) (constructed : (run E (URLSearchParams [.string q] : Call E.Obj ε Values)
      t).result = some params) (ops : List (ParamsOp × Rt E)) :
    Follows byName params (initialPairs q) ops :=
  (holds_initialPairs wellFormed constructed).follows ops

end

/-- `b=1&a=2`, whose names are not sorted. -/
theorem wellFormed_pairs : WellFormedQuery (js "b=1&a=2") := by
  refine ⟨by decide +kernel, fun p hp => ?_⟩
  have same : ∀ p ∈ goodPairs (pieces (trimQuestion (toCStringLen (js "b=1&a=2")))),
      viaString p.1 = p.1 ∧ viaString p.2 = p.2 := by decide +kernel
  exact ⟨viaString_eq_iff.mp (same p hp).1, viaString_eq_iff.mp (same p hp).2⟩

theorem constructed_pairs : (run plainEngine (URLSearchParams [.string (js "b=1&a=2")] :
    Call Empty Empty Values) plainRt).result =
      some [(ascii "b", [ascii "1"]), (ascii "a", [ascii "2"])] :=
  (URLSearchParams_string _ _).trans (congrArg some (by decide +kernel))

theorem search_params_list_pairs : Follows byName
    [(ascii "b", [ascii "1"]), (ascii "a", [ascii "2"])] (initialPairs (js "b=1&a=2"))
    [(.append (js "a") (js "3"), plainRt), (.get (js "a"), plainRt), (.toString, plainRt)] :=
  search_params_list (js "b=1&a=2") wellFormed_pairs plainRt _ constructed_pairs _

/-- `URLSearchParams("b=1&a=2").toString()` shows `a` first. -/
theorem search_params_list_fails : ∃ params,
    (run plainEngine (URLSearchParams [.string (js "b=1&a=2")] : Call Empty Empty Values)
      plainRt).result = some params ∧ WellFormedQuery (js "b=1&a=2") ∧
      ¬ Follows id params (initialPairs (js "b=1&a=2")) [(.toString, plainRt)] := by
  refine ⟨_, constructed_pairs, wellFormed_pairs, fun h => ?_⟩
  obtain ⟨⟨s, hs, shown, _⟩, _⟩ := h
  have holds := holds_initialPairs wellFormed_pairs constructed_pairs
  obtain ⟨s', hs', sorted, _⟩ := holds.text plainRt
  obtain rfl : s = s' := Value.string.inj (Option.some.inj (hs.symm.trans hs'))
  have order : SortedByName (fun a b => Values.nameLe (bytesOf a) (bytesOf b))
      (byName (initialPairs (js "b=1&a=2"))) :=
    sorted_sortByName (fun a b c => Values.nameLe_trans (bytesOf a) (bytesOf b) (bytesOf c))
      (fun a b => Values.nameLe_total (bytesOf a) (bytesOf b)) _
  have unsorted : ¬ SortedByName (fun a b => Values.nameLe (bytesOf a) (bytesOf b))
      (initialPairs (js "b=1&a=2")) := by
    unfold SortedByName
    decide +kernel
  have same : byName (initialPairs (js "b=1&a=2")) = initialPairs (js "b=1&a=2") :=
    Option.some.inj (sorted.symm.trans shown)
  exact unsorted (same ▸ order)

end Polyfill
