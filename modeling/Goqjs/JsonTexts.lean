import Goqjs.JsonWritten

/-!
# The texts of values

A text of a value stays one behind other parts and in brackets, on one line or on several.
-/

namespace Quickjs

open Binary64

/-- `-0` is written as `0`. -/
def plusZero (d : Double) : Double := if d.exponent = 0 ∧ d.fraction = 0 then ofInt 0 else d

def numberJson (d : Double) : Json := if isfinite d then .number (plusZero d) else .null

variable {strtod : Bytes → Double} {u text sep closing rest : Units} {parts : List Units} {j : Json}

/-- A text of `j` in front of whatever the writer puts behind it. -/
def ReadsAs (strtod : Bytes → Double) (u : Units) (j : Json) : Prop :=
  ∀ rest, Delimited (toCStringWide rest) →
    ValueText (jsonTokens strtod (toCStringWide (u ++ rest))) j
      (jsonTokens strtod (toCStringWide rest))

theorem toCStringWide_latin1 {b : Bytes} (ascii : ∀ c ∈ b, c.toNat < 0x80) (u : Units) :
    toCStringWide (latin1 b ++ u) = b ++ toCStringWide u := by
  induction b with
  | nil => rfl
  | cons c b ih =>
    have low := ascii c List.mem_cons_self
    have unit := toNat_ofNat16_of_lt (show c.toNat < 65536 by omega)
    change toCStringWide (UInt16.ofNat c.toNat :: (latin1 b ++ u)) = _
    rw [toCStringWide_ascii (by omega), ih fun d hd => ascii d (List.mem_cons_of_mem _ hd), unit,
      UInt8.ofNat_toNat, List.cons_append]

theorem jsonTokens_word {word : String} {c : UInt8} {b : Bytes}
    (units : asciiUnits word = latin1 (c :: b)) (first : isIdentFirst c = true)
    (others : b.all isIdentContinue = true) (delimited : Delimited (toCStringWide rest)) :
    jsonTokens strtod (toCStringWide (asciiUnits word ++ rest)) =
      .next (.ident (c :: b)) (jsonTokens strtod (toCStringWide rest)) := by
  have others := List.all_eq_true.mp others
  have ascii : ∀ d ∈ c :: b, d.toNat < 0x80 := by
    intro d mem
    apply isIdentContinue_ascii
    rcases List.mem_cons.mp mem with rfl | mem
    · simp [isIdentContinue, first]
    · exact others d mem
  rw [units, toCStringWide_latin1 ascii, jsonTokens_name first others delimited]

theorem readsAs_word {word : String} {c : UInt8} {b : Bytes}
    (units : asciiUnits word = latin1 (c :: b)) (first : isIdentFirst c = true)
    (others : b.all isIdentContinue = true) (literal : jsonLiteral (c :: b) = some j) :
    ReadsAs strtod (asciiUnits word) j := by
  intro rest delimited
  rw [jsonTokens_word units first others delimited]
  exact .literal literal _

theorem readsAs_null : ReadsAs strtod (asciiUnits "null") .null :=
  readsAs_word (c := 0x6E) (b := [0x75, 0x6C, 0x6C]) (by decide) (by decide) (by decide) rfl

theorem readsAs_bool (b : Bool) : ReadsAs strtod (asciiUnits (if b then "true" else "false"))
    (.bool b) := by
  cases b with
  | false =>
    exact readsAs_word (c := 0x66) (b := [0x61, 0x6C, 0x73, 0x65]) (by decide) (by decide)
      (by decide) rfl
  | true =>
    exact readsAs_word (c := 0x74) (b := [0x72, 0x75, 0x65]) (by decide) (by decide)
      (by decide) rfl

theorem readsAs_string (s : Units) : ReadsAs strtod (toQuotedString s) (.string s) := by
  intro rest _
  rw [jsonTokens_string]
  exact .string s _

theorem readsAs_number {numberText : Double → Bytes} {d : Double}
    (N : isfinite d = true → Numeral strtod (numberText d) (plusZero d)) :
    ReadsAs strtod (if isfinite d then latin1 (numberText d) else asciiUnits "null")
      (numberJson d) := by
  rw [numberJson]
  split_ifs with finite
  · intro rest delimited
    rw [toCStringWide_latin1 (N finite).ascii, jsonTokens_number (N finite) delimited]
    exact .number _ _
  · exact readsAs_null

theorem delimited_cons {c : UInt16} (low : c.toNat ∈ [0x0A, 0x2C, 0x5D, 0x7D]) (u : Units) :
    Delimited (toCStringWide (c :: u)) := by
  have ascii : c.toNat < 0x80 := by
    simp only [List.mem_cons, List.not_mem_nil, or_false] at low
    omega
  rw [toCStringWide_ascii ascii, Delimited, peek, List.headD_cons, toNat_ofNat_of_lt (by omega)]
  exact List.mem_cons_of_mem _ low

/-- The parts from the second on, each behind a comma. -/
def furtherParts (sep : Units) (parts : List Units) : Units :=
  parts.flatMap (fun part => 0x2C :: sep ++ part)

theorem furtherParts_cons (sep part : Units) (parts : List Units) (u : Units) :
    furtherParts sep (part :: parts) ++ u = 0x2C :: (sep ++ (part ++ (furtherParts sep parts ++ u))) := by
  simp [furtherParts]

theorem delimited_parts (more : Delimited (toCStringWide closing)) (sep : Units)
    (parts : List Units) : Delimited (toCStringWide (furtherParts sep parts ++ closing)) := by
  cases parts with
  | nil => exact more
  | cons part parts =>
    rw [furtherParts_cons]
    exact delimited_cons (by decide) _

/-- A character that is a token of its own. -/
theorem jsonTokens_mark {c : UInt16} (d : UInt8) (same : c.toNat = d.toNat)
    (mem : d ∈ [0x2C, 0x3A, 0x5B, 0x5D, 0x7B, 0x7D]) (u : Units) :
    jsonTokens strtod (toCStringWide (c :: u)) =
      .next (.char d) (jsonTokens strtod (toCStringWide u)) := by
  have low : c.toNat < 0x80 := by
    rw [same]
    simp only [List.mem_cons, List.not_mem_nil, or_false] at mem
    rcases mem with rfl | rfl | rfl | rfl | rfl | rfl <;> decide
  rw [toCStringWide_ascii low, same, UInt8.ofNat_toNat]
  exact jsonTokens_char mem _

theorem jsonTokens_comma (blank : ∀ c ∈ sep, isBlank c = true) (u : Units) :
    jsonTokens strtod (toCStringWide (0x2C :: (sep ++ u))) =
      .next (.char 0x2C) (jsonTokens strtod (toCStringWide u)) := by
  rw [jsonTokens_mark 0x2C rfl (by decide), jsonTokens_blanks blank]

theorem elements_read {part : Units} {items : List Json} {final : Tokens}
    (blank : ∀ c ∈ sep, isBlank c = true) (more : Delimited (toCStringWide closing))
    (close : jsonTokens strtod (toCStringWide closing) = .next (.char 0x5D) final)
    (first : ReadsAs strtod part j) (others : List.Forall₂ (ReadsAs strtod) parts items)
    (acc : List Json) :
    ElementsText (jsonTokens strtod (toCStringWide (part ++ (furtherParts sep parts ++ closing))))
      acc (acc ++ j :: items) (.next (.char 0x5D) final) := by
  have value := first _ (delimited_parts more sep parts)
  induction others generalizing part j acc with
  | nil =>
    rw [furtherParts, List.flatMap_nil, List.nil_append, close] at value
    exact .last value
  | cons second others ih =>
    rw [furtherParts_cons, jsonTokens_comma blank] at value
    rw [furtherParts_cons]
    have texts := ih second (acc ++ [j]) (second _ (delimited_parts more sep _))
    rw [List.append_assoc, List.singleton_append] at texts
    exact .more value texts

/-- A property in front of whatever the writer puts behind it. -/
def ReadsAsMember (strtod : Bytes → Double) (u : Units) (field : Units × Json) : Prop :=
  ∃ sep1 text, (∀ c ∈ sep1, isBlank c = true) ∧
    u = toQuotedString field.1 ++ 0x3A :: sep1 ++ text ∧ ReadsAs strtod text field.2

theorem member_tokens {part : Units} {field : Units × Json}
    (read : ReadsAsMember strtod part field) (delimited : Delimited (toCStringWide u)) :
    ∃ toks, jsonTokens strtod (toCStringWide (part ++ u)) =
        .next (.string field.1) (.next (.char 0x3A) toks) ∧
      ValueText toks field.2 (jsonTokens strtod (toCStringWide u)) := by
  obtain ⟨sep1, text, blank, rfl, value⟩ := read
  refine ⟨_, ?_, value u delimited⟩
  rw [List.append_assoc, List.append_assoc, List.cons_append, jsonTokens_string,
    jsonTokens_mark 0x3A rfl (by decide), jsonTokens_blanks blank]

theorem defineProperty_distinct {acc fields : List (Units × Json)} {field : Units × Json}
    (distinct : ((acc ++ field :: fields).map Prod.fst).Nodup) :
    defineProperty acc field.1 field.2 = acc ++ [field] := by
  rw [List.map_append, List.map_cons] at distinct
  apply if_neg
  intro any
  obtain ⟨f, mem, same⟩ := List.any_eq_true.mp any
  have ne := (List.nodup_append.mp distinct).2.2 _ (List.mem_map_of_mem mem) _ List.mem_cons_self
  exact ne (beq_iff_eq.mp same)

theorem members_read {part : Units} {field : Units × Json} {fields : List (Units × Json)}
    {final : Tokens} (blank : ∀ c ∈ sep, isBlank c = true)
    (more : Delimited (toCStringWide closing))
    (close : jsonTokens strtod (toCStringWide closing) = .next (.char 0x7D) final)
    (first : ReadsAsMember strtod part field)
    (others : List.Forall₂ (ReadsAsMember strtod) parts fields) (acc : List (Units × Json))
    (distinct : ((acc ++ field :: fields).map Prod.fst).Nodup) :
    MembersText (jsonTokens strtod (toCStringWide (part ++ (furtherParts sep parts ++ closing))))
      acc (acc ++ field :: fields) (.next (.char 0x7D) final) := by
  have defined := defineProperty_distinct distinct
  induction others generalizing part field acc with
  | nil =>
    obtain ⟨toks, start, value⟩ := member_tokens first (delimited_parts more sep [])
    rw [furtherParts, List.flatMap_nil, List.nil_append] at start value ⊢
    rw [close] at value
    rw [start, ← defined]
    exact .last value
  | @cons part' field' parts fields second others ih =>
    obtain ⟨toks, start, value⟩ := member_tokens first (delimited_parts more sep (part' :: parts))
    rw [furtherParts_cons] at start value ⊢
    rw [jsonTokens_comma blank] at value
    rw [start]
    apply MembersText.more value
    rw [defined]
    have apart : (((acc ++ [field]) ++ field' :: fields).map Prod.fst).Nodup := by
      simpa using distinct
    have texts := ih second (acc ++ [field]) apart (defineProperty_distinct apart)
    rwa [List.append_assoc, List.singleton_append] at texts

variable {gap indent : Units}

theorem blank_lineOf (gap : Units) (blank : ∀ c ∈ indent, isBlank c = true) :
    ∀ c ∈ lineOf gap indent, isBlank c = true := by
  intro c mem
  rw [lineOf] at mem
  split_ifs at mem
  · cases mem
  · rcases List.mem_cons.mp mem with rfl | mem
    · rfl
    · exact blank c mem

theorem blank_append {w w' : Units} (first : ∀ c ∈ w, isBlank c = true)
    (second : ∀ c ∈ w', isBlank c = true) : ∀ c ∈ w ++ w', isBlank c = true := by
  intro c mem
  exact (List.mem_append.mp mem).elim (first c) (second c)

theorem delimited_closing (gap indent : Units) {c : UInt16}
    (low : c.toNat ∈ [0x0A, 0x2C, 0x5D, 0x7D]) (u : Units) :
    Delimited (toCStringWide (lineOf gap indent ++ c :: u)) := by
  rw [lineOf]
  split_ifs
  · exact delimited_cons low u
  · exact delimited_cons (by decide) _

theorem bracketed_nil (opening closing : UInt16) (u : Units) :
    bracketed gap opening closing indent [] ++ u = opening :: closing :: u := by
  simp [bracketed, separated]

theorem bracketed_cons (opening closing : UInt16) (part : Units) (parts : List Units) (u : Units) :
    bracketed gap opening closing indent (part :: parts) ++ u =
      opening :: (lineOf gap (indent ++ gap) ++ (part ++
        (furtherParts (lineOf gap (indent ++ gap)) parts ++ (lineOf gap indent ++ closing :: u)))) := by
  simp [bracketed, separated, furtherParts]

theorem readsAs_array {items : List Json} (blankGap : ∀ c ∈ gap, isBlank c = true)
    (blank : ∀ c ∈ indent, isBlank c = true)
    (texts : List.Forall₂ (ReadsAs strtod) parts items) :
    ReadsAs strtod (bracketed gap 0x5B 0x5D indent parts) (.array items) := by
  intro rest _
  cases texts with
  | nil =>
    rw [bracketed_nil, jsonTokens_mark 0x5B rfl (by decide), jsonTokens_mark 0x5D rfl (by decide)]
    exact .emptyArray _
  | cons first others =>
    have line := blank_lineOf gap (blank_append blank blankGap)
    have close : jsonTokens strtod (toCStringWide (lineOf gap indent ++ 0x5D :: rest)) =
        .next (.char 0x5D) (jsonTokens strtod (toCStringWide rest)) := by
      rw [jsonTokens_blanks (blank_lineOf gap blank), jsonTokens_mark 0x5D rfl (by decide)]
    rw [bracketed_cons, jsonTokens_mark 0x5B rfl (by decide), jsonTokens_blanks line]
    have more := delimited_closing gap indent (c := 0x5D) (by decide) rest
    exact .array (elements_read line more close first others [])

theorem readsAs_object {fields : List (Units × Json)} (distinct : (fields.map Prod.fst).Nodup)
    (blankGap : ∀ c ∈ gap, isBlank c = true) (blank : ∀ c ∈ indent, isBlank c = true)
    (texts : List.Forall₂ (ReadsAsMember strtod) parts fields) :
    ReadsAs strtod (bracketed gap 0x7B 0x7D indent parts) (.object fields) := by
  intro rest _
  cases texts with
  | nil =>
    rw [bracketed_nil, jsonTokens_mark 0x7B rfl (by decide), jsonTokens_mark 0x7D rfl (by decide)]
    exact .emptyObject _
  | cons first others =>
    have line := blank_lineOf gap (blank_append blank blankGap)
    have close : jsonTokens strtod (toCStringWide (lineOf gap indent ++ 0x7D :: rest)) =
        .next (.char 0x7D) (jsonTokens strtod (toCStringWide rest)) := by
      rw [jsonTokens_blanks (blank_lineOf gap blank), jsonTokens_mark 0x7D rfl (by decide)]
    rw [bracketed_cons, jsonTokens_mark 0x7B rfl (by decide), jsonTokens_blanks line]
    have more := delimited_closing gap indent (c := 0x7D) (by decide) rest
    exact .object (members_read line more close first others [] distinct)

end Quickjs
