import Goqjs.JsonTexts

/-!
# What is written and read again

The JSON value that a heap stands for is a finite unfolding of it, so there is none where an object
contains itself. What the writer makes of the heap is a text of that value, if the C stack has room
for its nesting.
-/

namespace Quickjs

open Binary64

variable {n : Nat}

/-- What stands for undefined: `null` in an array, nothing in an object. -/
def HeapValue.hidden (v : HeapValue n) : Bool := (jsonCheck v).isUndefined

section Meaning

variable (objs : Fin n → HeapObject n)

mutual

/-- The heap unfolds to this value. -/
inductive Means : HeapValue n → Json → Prop where
  | null : Means .null .null
  | bool (b : Bool) : Means (.bool b) (.bool b)
  | number (d : Double) : Means (.number d) (numberJson d)
  | string (s : Str) : Means (.string s) (.string s.units)
  | array {i : Fin n} {elements : List (HeapValue n)} {items : List Json}
      (object : objs i = .array elements) (each : ItemsMean elements items) :
      Means (.object i) (.array items)
  | plain {i : Fin n} {props : List (Units × HeapValue n)} {fields : List (Units × Json)}
      {wellFormed : PlainFields props} (object : objs i = .plain props wellFormed)
      (each : MembersMean props fields) : Means (.object i) (.object fields)

inductive ItemsMean : List (HeapValue n) → List Json → Prop where
  | nil : ItemsMean [] []
  | hole {v : HeapValue n} {vs : List (HeapValue n)} {items : List Json}
      (hidden : v.hidden = true) (rest : ItemsMean vs items) : ItemsMean (v :: vs) (.null :: items)
  | item {v : HeapValue n} {vs : List (HeapValue n)} {j : Json} {items : List Json}
      (value : Means v j) (rest : ItemsMean vs items) : ItemsMean (v :: vs) (j :: items)

inductive MembersMean : List (Units × HeapValue n) → List (Units × Json) → Prop where
  | nil : MembersMean [] []
  | hidden {name : Units} {v : HeapValue n} {props : List (Units × HeapValue n)}
      {fields : List (Units × Json)} (hidden : v.hidden = true) (rest : MembersMean props fields) :
      MembersMean ((name, v) :: props) fields
  | member {name : Units} {v : HeapValue n} {j : Json} {props : List (Units × HeapValue n)}
      {fields : List (Units × Json)} (value : Means v j) (rest : MembersMean props fields) :
      MembersMean ((name, v) :: props) ((name, j) :: fields)

end

end Meaning

variable {objs : Fin n → HeapObject n} {v : HeapValue n} {j : Json}

theorem Means.visible (h : Means objs v j) : v.hidden = false := by
  cases h <;> rfl

theorem jsonCheck_visible (h : v.hidden = false) : jsonCheck v = v ∧ v.isUndefined = false := by
  cases v <;> first | exact ⟨rfl, rfl⟩ | cases h

mutual

/-- A heap stands for one value at most. -/
theorem Means.unique : ∀ {v : HeapValue n} {j j' : Json}, Means objs v j → Means objs v j' → j = j'
  | _, _, _, .null, .null => rfl
  | _, _, _, .bool _, .bool _ => rfl
  | _, _, _, .number _, .number _ => rfl
  | _, _, _, .string _, .string _ => rfl
  | _, _, _, .array object each, h => by
    cases h with
    | array object' each' =>
      cases object.symm.trans object'
      rw [each.unique each']
    | plain object' each' => cases object.symm.trans object'
  | _, _, _, .plain object each, h => by
    cases h with
    | array object' each' => cases object.symm.trans object'
    | plain object' each' =>
      cases object.symm.trans object'
      rw [each.unique each']

theorem ItemsMean.unique : ∀ {vs : List (HeapValue n)} {items items' : List Json},
    ItemsMean objs vs items → ItemsMean objs vs items' → items = items'
  | _, _, _, .nil, .nil => rfl
  | _, _, _, .hole hidden rest, h => by
    cases h with
    | hole _ rest' => rw [rest.unique rest']
    | item value' _ => cases hidden.symm.trans value'.visible
  | _, _, _, .item value rest, h => by
    cases h with
    | hole hidden _ => cases hidden.symm.trans value.visible
    | item value' rest' => rw [value.unique value', rest.unique rest']

theorem MembersMean.unique : ∀ {props : List (Units × HeapValue n)}
    {fields fields' : List (Units × Json)},
    MembersMean objs props fields → MembersMean objs props fields' → fields = fields'
  | _, _, _, .nil, .nil => rfl
  | _, _, _, .hidden hidden rest, h => by
    cases h with
    | hidden _ rest' => exact rest.unique rest'
    | member value' _ => cases hidden.symm.trans value'.visible
  | _, _, _, .member value rest, h => by
    cases h with
    | hidden hidden _ => cases hidden.symm.trans value.visible
    | member value' rest' => rw [value.unique value', rest.unique rest']

end

theorem MembersMean.names : ∀ {props : List (Units × HeapValue n)} {fields : List (Units × Json)},
    MembersMean objs props fields → (fields.map Prod.fst).Sublist (props.map Prod.fst)
  | _, _, .nil => List.Sublist.slnil
  | _, _, .hidden _ rest => rest.names.cons _
  | _, _, .member _ rest => rest.names.cons_cons _

mutual

/-- How many calls of the writer are nested for this value. -/
def Json.nesting : Json → Nat
  | .array elements => nestingOfElements elements + 1
  | .object fields => nestingOfFields fields + 1
  | .null | .bool _ | .number _ | .string _ => 1

def nestingOfElements : List Json → Nat
  | [] => 0
  | j :: rest => max j.nesting (nestingOfElements rest)

def nestingOfFields : List (Units × Json) → Nat
  | [] => 0
  | (_, j) :: rest => max j.nesting (nestingOfFields rest)

end

theorem nestingOfElements_le_iff {items : List Json} {d : Nat} :
    nestingOfElements items ≤ d ↔ ∀ j ∈ items, j.nesting ≤ d := by
  induction items with
  | nil => simp [nestingOfElements]
  | cons j items ih => simp only [nestingOfElements, Nat.max_le, ih, List.forall_mem_cons]

theorem nestingOfFields_le_iff {fields : List (Units × Json)} {d : Nat} :
    nestingOfFields fields ≤ d ↔ ∀ j ∈ fields.map Prod.snd, j.nesting ≤ d := by
  induction fields with
  | nil => simp [nestingOfFields]
  | cons field fields ih =>
    obtain ⟨name, j⟩ := field
    simp only [nestingOfFields, Nat.max_le, ih, List.map_cons, List.forall_mem_cons]

theorem Json.nesting_pos (j : Json) : 0 < j.nesting := by
  cases j <;> simp [Json.nesting]

theorem nesting_numberJson (d : Double) : (numberJson d).nesting = 1 := by
  unfold numberJson
  split_ifs <;> rfl

/-- What an array or an object holds is nested less deep. -/
theorem nesting_lt_array {items : List Json} (mem : j ∈ items) : j.nesting < (Json.array items).nesting := by
  have := nestingOfElements_le_iff.mp (le_refl (nestingOfElements items)) j mem
  simp only [Json.nesting]
  omega

theorem nesting_lt_object {fields : List (Units × Json)} (mem : j ∈ fields.map Prod.snd) :
    j.nesting < (Json.object fields).nesting := by
  have := nestingOfFields_le_iff.mp (le_refl (nestingOfFields fields)) j mem
  simp only [Json.nesting]
  omega

variable {strtod : Bytes → Double} {numberText : Double → Bytes} {gap indent text : Units}
  {stack : List (Fin n)} {room : Nat} {write : HeapValue n → Except String Units}

def HeapObject.slots : HeapObject n → List (HeapValue n)
  | .array elements => elements
  | .plain fields _ => fields.map Prod.snd

/-- The parser reads what is written for this number, if it is written as a number. -/
def ReadsNumber (strtod : Bytes → Double) (numberText : Double → Bytes) (d : Double) : Prop :=
  isfinite d = true → Numeral strtod (numberText d) (plusZero d)

theorem jsonToStr_array {i : Fin n} {elements : List (HeapValue n)} (fresh : i ∉ stack)
    (object : objs i = .array elements) :
    jsonToStr objs numberText gap (room + 1) stack indent (.object i) =
      (jsonElements (jsonToStr objs numberText gap room (i :: stack) (indent ++ gap))
        elements).map (bracketed gap 0x5B 0x5D indent) := by
  simp only [jsonToStr, if_neg fresh, object]
  cases jsonElements (jsonToStr objs numberText gap room (i :: stack) (indent ++ gap)) elements
    <;> rfl

theorem jsonToStr_plain {i : Fin n} {props : List (Units × HeapValue n)}
    {wellFormed : PlainFields props} (fresh : i ∉ stack)
    (object : objs i = .plain props wellFormed) :
    jsonToStr objs numberText gap (room + 1) stack indent (.object i) =
      (jsonMembers (jsonToStr objs numberText gap room (i :: stack) (indent ++ gap))
        (if gap = [] then [] else [0x20]) props).map (bracketed gap 0x7B 0x7D indent) := by
  simp only [jsonToStr, if_neg fresh, object]
  cases jsonMembers (jsonToStr objs numberText gap room (i :: stack) (indent ++ gap))
    (if gap = [] then [] else [0x20]) props <;> rfl

theorem items_written : ∀ {elements : List (HeapValue n)} {items : List Json},
    ItemsMean objs elements items →
    (∀ v j, (v ∈ elements ∨ v = .null) → (j ∈ items) → Means objs v j →
      ∃ text, write v = .ok text ∧ ReadsAs strtod text j) →
    ∃ parts, jsonElements write elements = .ok parts ∧
      List.Forall₂ (ReadsAs strtod) parts items
  | _, _, .nil, _ => ⟨[], rfl, .nil⟩
  | v :: _, _, .hole hidden rest, each => by
    obtain ⟨text, written, reads⟩ := each .null .null (.inr rfl) List.mem_cons_self .null
    obtain ⟨parts, others, texts⟩ := items_written rest fun w j mem memj =>
      each w j (mem.imp_left (List.mem_cons_of_mem v)) (List.mem_cons_of_mem _ memj)
    have absent : (jsonCheck v).isUndefined = true := hidden
    refine ⟨text :: parts, ?_, .cons reads texts⟩
    simp only [jsonElements, absent, if_true, written, others, bind, Except.bind]
    rfl
  | v :: _, _, .item (j := j) value rest, each => by
    obtain ⟨text, written, reads⟩ := each v j (.inl List.mem_cons_self) List.mem_cons_self value
    obtain ⟨parts, others, texts⟩ := items_written rest fun w j mem memj =>
      each w j (mem.imp_left (List.mem_cons_of_mem v)) (List.mem_cons_of_mem _ memj)
    obtain ⟨same, present⟩ := jsonCheck_visible value.visible
    refine ⟨text :: parts, ?_, .cons reads texts⟩
    simp only [jsonElements, same, present, Bool.false_eq_true, if_false, written, others, bind,
      Except.bind]
    rfl

theorem members_written {sep1 : Units} (blank : ∀ c ∈ sep1, isBlank c = true) :
    ∀ {props : List (Units × HeapValue n)} {fields : List (Units × Json)},
    MembersMean objs props fields →
    (∀ v j, v ∈ props.map Prod.snd → j ∈ fields.map Prod.snd → Means objs v j →
      ∃ text, write v = .ok text ∧ ReadsAs strtod text j) →
    ∃ parts, jsonMembers write sep1 props = .ok parts ∧
      List.Forall₂ (ReadsAsMember strtod) parts fields
  | _, _, .nil, _ => ⟨[], rfl, .nil⟩
  | (_, v) :: _, _, .hidden hidden rest, each => by
    obtain ⟨parts, others, texts⟩ := members_written blank rest fun w j mem =>
      each w j (List.mem_cons_of_mem v mem)
    have absent : (jsonCheck v).isUndefined = true := hidden
    refine ⟨parts, ?_, texts⟩
    simp only [jsonMembers, absent, if_true, others]
  | (name, v) :: _, _, .member (j := j) value rest, each => by
    obtain ⟨text, written, reads⟩ := each v j List.mem_cons_self List.mem_cons_self value
    obtain ⟨parts, others, texts⟩ := members_written blank rest fun w j mem memj =>
      each w j (List.mem_cons_of_mem v mem) (List.mem_cons_of_mem _ memj)
    obtain ⟨same, present⟩ := jsonCheck_visible value.visible
    refine ⟨_, ?_, .cons ⟨sep1, text, blank, rfl, reads⟩ texts⟩
    simp only [jsonMembers, same, present, Bool.false_eq_true, if_false, written, others, bind,
      Except.bind]
    rfl

/-- What has a value is written if there is room for its nesting, and the text reads as that value.
No object on the stack is met again: its value would be nested deeper than itself. -/
theorem means_written (heap : ∀ i d, .number d ∈ (objs i).slots → ReadsNumber strtod numberText d)
    (blankGap : ∀ c ∈ gap, isBlank c = true) (room : Nat) (stack : List (Fin n)) (indent : Units)
    (h : Means objs v j) (enough : j.nesting ≤ room)
    (number : ∀ d, v = .number d → ReadsNumber strtod numberText d)
    (blank : ∀ c ∈ indent, isBlank c = true)
    (within : ∀ k ∈ stack, ∃ whole, Means objs (.object k) whole ∧ j.nesting < whole.nesting) :
    ∃ text, jsonToStr objs numberText gap room stack indent v = .ok text ∧
      ReadsAs strtod text j := by
  induction room generalizing j v indent stack with
  | zero => exact absurd j.nesting_pos (by omega)
  | succ room ih =>
    have fresh : ∀ i, v = .object i → i ∉ stack := by
      rintro i rfl mem
      obtain ⟨whole, h', larger⟩ := within i mem
      rw [h.unique h'] at larger
      exact lt_irrefl _ larger
    have inner : ∀ i, v = .object i → ∀ w k,
        (∀ d, w = .number d → ReadsNumber strtod numberText d) → Means objs w k →
        k.nesting < j.nesting → ∃ text, jsonToStr objs numberText gap room (i :: stack)
          (indent ++ gap) w = .ok text ∧ ReadsAs strtod text k := by
      rintro i rfl w k number value smaller
      apply ih _ _ value (by omega) number (blank_append blank blankGap)
      intro l mem
      rcases List.mem_cons.mp mem with rfl | mem
      · exact ⟨j, h, smaller⟩
      · obtain ⟨whole, h', larger⟩ := within l mem
        exact ⟨whole, h', smaller.trans larger⟩
    cases h with
    | null => exact ⟨_, rfl, readsAs_null⟩
    | bool b => exact ⟨_, rfl, readsAs_bool b⟩
    | number d => exact ⟨_, rfl, readsAs_number (number d rfl)⟩
    | string s => exact ⟨_, rfl, readsAs_string s.units⟩
    | @array i elements items object each =>
      obtain ⟨parts, written, texts⟩ := items_written each fun w k mem memk value => by
        apply inner i rfl w k _ value (nesting_lt_array memk)
        rintro d rfl
        apply heap i d
        rw [object]
        exact mem.resolve_right nofun
      rw [jsonToStr_array (fresh i rfl) object, written]
      exact ⟨_, rfl, readsAs_array blankGap blank texts⟩
    | @plain i props fields wellFormed object each =>
      have spaces : ∀ c ∈ (if gap = [] then [] else [0x20] : Units), isBlank c = true := by
        split_ifs
        · exact nofun
        · exact List.forall_mem_singleton.mpr rfl
      obtain ⟨parts, written, texts⟩ := members_written spaces each fun w k mem memk value => by
        apply inner i rfl w k _ value (nesting_lt_object memk)
        rintro d rfl
        apply heap i d
        rw [object]
        exact mem
      rw [jsonToStr_plain (fresh i rfl) object, written]
      exact ⟨_, rfl, readsAs_object (wellFormed.distinct.sublist each.names) blankGap blank texts⟩

theorem items_of_written {d : Nat} (each : ∀ v text, v.hidden = false → write v = .ok text →
      ∃ j, Means objs v j ∧ j.nesting ≤ d) (elements : List (HeapValue n)) {parts : List Units}
    (written : jsonElements write elements = .ok parts) :
    ∃ items, ItemsMean objs elements items ∧ nestingOfElements items ≤ d := by
  induction elements generalizing parts with
  | nil => exact ⟨[], .nil, Nat.zero_le d⟩
  | cons v elements ih =>
    obtain ⟨text, first, rest⟩ := except_bind_iff.mp written
    obtain ⟨others, second, -⟩ := except_bind_iff.mp rest
    obtain ⟨items, rest, nested⟩ := ih second
    cases hidden : v.hidden with
    | true =>
      have absent : (jsonCheck v).isUndefined = true := hidden
      rw [if_pos absent] at first
      obtain ⟨j, value, deep⟩ := each .null text rfl first
      obtain rfl := value.unique .null
      exact ⟨_, .hole hidden rest, max_le deep nested⟩
    | false =>
      obtain ⟨same, present⟩ := jsonCheck_visible hidden
      rw [same, present] at first
      obtain ⟨j, value, deep⟩ := each v text hidden first
      exact ⟨_, .item value rest, max_le deep nested⟩

theorem members_of_written {d : Nat} (each : ∀ v text, v.hidden = false → write v = .ok text →
      ∃ j, Means objs v j ∧ j.nesting ≤ d) {sep1 : Units} (props : List (Units × HeapValue n)) {parts : List Units}
    (written : jsonMembers write sep1 props = .ok parts) :
    ∃ fields, MembersMean objs props fields ∧ nestingOfFields fields ≤ d := by
  induction props generalizing parts with
  | nil => exact ⟨[], .nil, Nat.zero_le d⟩
  | cons prop props ih =>
    obtain ⟨name, v⟩ := prop
    simp only [jsonMembers] at written
    cases hidden : v.hidden with
    | true =>
      rw [if_pos (show (jsonCheck v).isUndefined = true from hidden)] at written
      obtain ⟨fields, rest, nested⟩ := ih written
      exact ⟨_, .hidden hidden rest, nested⟩
    | false =>
      obtain ⟨same, present⟩ := jsonCheck_visible hidden
      rw [same, if_neg (by simp [present])] at written
      obtain ⟨text, first, rest⟩ := except_bind_iff.mp written
      obtain ⟨others, second, -⟩ := except_bind_iff.mp rest
      obtain ⟨fields, rest, nested⟩ := ih second
      obtain ⟨j, value, deep⟩ := each v text hidden first
      exact ⟨_, .member value rest, max_le deep nested⟩

/-- What is written has a value, and there was room for its nesting. -/
theorem means_of_written (visible : v.hidden = false)
    (written : jsonToStr objs numberText gap room stack indent v = .ok text) :
    ∃ j, Means objs v j ∧ j.nesting ≤ room := by
  induction room generalizing v stack indent text with
  | zero => cases written
  | succ room ih =>
    have flat : 1 ≤ room + 1 := Nat.le_add_left 1 room
    cases v with
    | undefined => cases visible
    | symbol => cases visible
    | function => cases visible
    | bigInt => cases written
    | null => exact ⟨_, .null, flat⟩
    | bool b => exact ⟨_, .bool b, flat⟩
    | number d => exact ⟨_, .number d, (nesting_numberJson d).trans_le flat⟩
    | string s => exact ⟨_, .string s, flat⟩
    | object i =>
      by_cases fresh : i ∈ stack
      · simp only [jsonToStr, if_pos fresh] at written
        cases written
      · cases object : objs i with
        | array elements =>
          rw [jsonToStr_array fresh object] at written
          cases parts : jsonElements (jsonToStr objs numberText gap room (i :: stack)
              (indent ++ gap)) elements with
          | error e =>
            rw [parts] at written
            cases written
          | ok texts =>
            obtain ⟨items, each, nested⟩ := items_of_written (fun w text hidden => ih hidden) _ parts
            exact ⟨_, .array object each, Nat.succ_le_succ nested⟩
        | plain props wellFormed =>
          rw [jsonToStr_plain fresh object] at written
          cases parts : jsonMembers (jsonToStr objs numberText gap room (i :: stack)
              (indent ++ gap)) (if gap = [] then [] else [0x20]) props with
          | error e =>
            rw [parts] at written
            cases written
          | ok texts =>
            obtain ⟨fields, each, nested⟩ := members_of_written (fun w text hidden => ih hidden) _ parts
            exact ⟨_, .plain object each, Nat.succ_le_succ nested⟩

theorem toCStringWide_nil : toCStringWide [] = [] := by
  rw [toCStringWide_eq]
  rfl

theorem delimited_nil : Delimited (toCStringWide []) := by
  simp [toCStringWide_nil, Delimited, peek]

theorem parseJSON_empty : parseJSON strtod [] ≠ .ok j := by
  intro parsed
  cases parseJSON_iff.mp parsed

theorem parseJSON_undefined :
    parseJSON strtod (toCStringWide (asciiUnits "undefined")) ≠ .ok j := by
  intro parsed
  have text := parseJSON_iff.mp parsed
  have units : asciiUnits "undefined" =
      latin1 (0x75 :: [0x6E, 0x64, 0x65, 0x66, 0x69, 0x6E, 0x65, 0x64]) := by decide
  have word := @jsonTokens_word strtod [] _ _ _ units (by decide) (by decide) delimited_nil
  rw [List.append_nil] at word
  rw [word] at text
  cases text with
  | literal word => cases word

section RoundTrip

variable (numbers : ∀ d, (v = .number d ∨ ∃ i, .number d ∈ (objs i).slots) →
  ReadsNumber strtod numberText d)

theorem stringify_hidden (hidden : v.hidden = true) (room : Nat) (space : HeapValue n) :
    jsonStringify objs numberText room space v = .ok none :=
  if_pos hidden

theorem stringify_visible (visible : v.hidden = false) (room : Nat) (space : HeapValue n) :
    jsonStringify objs numberText room space v =
      (jsonToStr objs numberText (jsonGap space) room [] [] v).map some := by
  obtain ⟨same, present⟩ := jsonCheck_visible visible
  simp only [jsonStringify, same, present, Bool.false_eq_true, if_false]
  cases jsonToStr objs numberText (jsonGap space) room [] [] v <;> rfl

include numbers in
theorem stringify_means (space : HeapValue n) (blank : ∀ c ∈ jsonGap space, isBlank c = true)
    (h : Means objs v j) (enough : j.nesting ≤ room) :
    ∃ text, jsonStringify objs numberText room space v = .ok (some text) ∧
      parseJSON strtod (toCStringWide text) = .ok j := by
  obtain ⟨text, written, reads⟩ := means_written (fun i d mem => numbers d (.inr ⟨i, mem⟩)) blank
    room [] [] h enough (fun d eq => numbers d (.inl eq)) nofun nofun
  refine ⟨text, ?_, ?_⟩
  · rw [stringify_visible h.visible, written]
    rfl
  · have whole := reads [] delimited_nil
    rw [List.append_nil, toCStringWide_nil] at whole
    exact parseJSON_iff.mpr whole

theorem stringify_text {space : HeapValue n}
    (h : jsonStringify objs numberText room space v = .ok (some text)) :
    ∃ j, Means objs v j ∧ j.nesting ≤ room := by
  cases hidden : v.hidden with
  | true =>
    rw [stringify_hidden hidden] at h
    cases h
  | false =>
    rw [stringify_visible hidden] at h
    cases written : jsonToStr objs numberText (jsonGap space) room [] [] v with
    | error e =>
      rw [written] at h
      cases h
    | ok text => exact means_of_written hidden written

include numbers

theorem parse_stringified (space : HeapValue n) (blank : ∀ c ∈ jsonGap space, isBlank c = true)
    (written : jsonStringify objs numberText room space v = .ok (some text)) :
    parseJSON strtod (toCStringWide text) = .ok j ↔ Means objs v j ∧ j.nesting ≤ room := by
  obtain ⟨j', value, enough⟩ := stringify_text written
  obtain ⟨text', written', parsed'⟩ := stringify_means numbers space blank value enough
  cases written.symm.trans written'
  rw [parsed']
  constructor
  · intro same
    cases same
    exact ⟨value, enough⟩
  · rintro ⟨value', -⟩
    rw [value.unique value']

end RoundTrip

theorem smallFields :
    PlainFields ([([0x61], .object 1), ([0x62], .function)] : List (Units × HeapValue 2)) where
  distinct := by decide
  noToJSON := by
    intro f mem name
    rcases List.mem_pair.mp mem with rfl | rfl
    · exact absurd name (by decide)
    · exact absurd name (by decide)

/-- `{"a": [undefined, 7, -0], "b": a function}`, with the array in a place of its own. -/
def smallHeap : Fin 2 → HeapObject 2
  | 0 => .plain [([0x61], .object 1), ([0x62], .function)] smallFields
  | 1 => .array [.undefined, .number (ofInt 7), .number (ofNat true 0)]

/-- The digits of the numbers of this heap. -/
def smallText (d : Double) : Bytes := if d = ofInt 7 then [0x37] else [0x30]

def smallStrtod (text : Bytes) : Double := if text = [0x37] then ofInt 7 else ofInt 0

theorem smallHeap_reads (v : HeapValue 2) (object : v = .object 0) (d : Double)
    (h : v = .number d ∨ ∃ i, .number d ∈ (smallHeap i).slots) :
    ReadsNumber smallStrtod smallText d := by
  subst object
  have cases : d = ofInt 7 ∨ d = ofNat true 0 := by
    rcases h with h | ⟨i, mem⟩
    · cases h
    · have only : ∀ i, .number d ∈ (smallHeap i).slots → d = ofInt 7 ∨ d = ofNat true 0 := by
        simp [smallHeap, HeapObject.slots]
      exact only i mem
  intro _
  rcases cases with rfl | rfl
  · exact ⟨List.forall_mem_singleton.mpr (by decide), rfl, by decide, by decide⟩
  · exact ⟨List.forall_mem_singleton.mpr (by decide), rfl, by decide, by decide⟩

end Quickjs
