import Goqjs.JsonParser

/-!
# What the parser accepts

A grammar over tokens: a value takes the tokens in front of the rest. The parser finds exactly what
the grammar derives, and the number that bounds its recursion is never reached.
-/

namespace Quickjs

open Binary64

mutual

/-- `ValueText toks v rest`: a text of `v` stands in front of `rest`. -/
inductive ValueText : Tokens → Json → Tokens → Prop where
  | string (s : Units) (rest : Tokens) : ValueText (.next (.string s) rest) (.string s) rest
  | number (d : Double) (rest : Tokens) : ValueText (.next (.number d) rest) (.number d) rest
  | literal {name : Bytes} {v : Json} (word : jsonLiteral name = some v) (rest : Tokens) :
      ValueText (.next (.ident name) rest) v rest
  | emptyObject (rest : Tokens) :
      ValueText (.next (.char 0x7B) (.next (.char 0x7D) rest)) (.object []) rest
  | object {toks rest : Tokens} {fields : List (Units × Json)}
      (members : MembersText toks [] fields (.next (.char 0x7D) rest)) :
      ValueText (.next (.char 0x7B) toks) (.object fields) rest
  | emptyArray (rest : Tokens) :
      ValueText (.next (.char 0x5B) (.next (.char 0x5D) rest)) (.array []) rest
  | array {toks rest : Tokens} {elements : List Json}
      (items : ElementsText toks [] elements (.next (.char 0x5D) rest)) :
      ValueText (.next (.char 0x5B) toks) (.array elements) rest

/-- Properties, defined one after another on an object that has some already. -/
inductive MembersText : Tokens → List (Units × Json) → List (Units × Json) → Tokens → Prop where
  | last {name : Units} {toks rest : Tokens} {fields : List (Units × Json)} {v : Json}
      (value : ValueText toks v (.next (.char 0x7D) rest)) :
      MembersText (.next (.string name) (.next (.char 0x3A) toks)) fields
        (defineProperty fields name v) (.next (.char 0x7D) rest)
  | more {name : Units} {toks rest final : Tokens} {fields fields' : List (Units × Json)} {v : Json}
      (value : ValueText toks v (.next (.char 0x2C) rest))
      (others : MembersText rest (defineProperty fields name v) fields' final) :
      MembersText (.next (.string name) (.next (.char 0x3A) toks)) fields fields' final

/-- Elements, behind some others. -/
inductive ElementsText : Tokens → List Json → List Json → Tokens → Prop where
  | last {toks rest : Tokens} {elements : List Json} {v : Json}
      (value : ValueText toks v (.next (.char 0x5D) rest)) :
      ElementsText toks elements (elements ++ [v]) (.next (.char 0x5D) rest)
  | more {toks rest final : Tokens} {elements elements' : List Json} {v : Json}
      (value : ValueText toks v (.next (.char 0x2C) rest))
      (others : ElementsText rest (elements ++ [v]) elements' final) :
      ElementsText toks elements elements' final

end

theorem except_bind_iff {ε α β : Type} {x : Except ε α} {f : α → Except ε β} {b : β} :
    (x >>= f) = .ok b ↔ ∃ a, x = .ok a ∧ f a = .ok b := by
  cases x <;> simp [bind, Except.bind]

theorem except_bind_congr {ε α β : Type} {x : Except ε α} {f g : α → Except ε β}
    (same : ∀ a, x = .ok a → f a = g a) : (x >>= f) = x >>= g := by
  cases x with
  | error e => rfl
  | ok a => exact same a rfl

/-- The lexer has found a token or the end. -/
def Tokens.Lexed (toks : Tokens) : Prop := ∀ e, toks ≠ .error e

theorem Tokens.advance_ok {t : Token} {rest toks : Tokens}
    (h : (Tokens.next t rest).advance = .ok toks) : toks = rest ∧ rest.Lexed := by
  cases rest with
  | error e => cases h
  | eof =>
    cases h
    exact ⟨rfl, nofun⟩
  | next u r =>
    cases h
    exact ⟨rfl, nofun⟩

theorem Tokens.advance_eq (t : Token) {rest : Tokens} (lexed : rest.Lexed) :
    (Tokens.next t rest).advance = .ok rest := by
  cases rest with
  | error e => exact absurd rfl (lexed e)
  | eof => rfl
  | next u r => rfl

theorem Tokens.isChar_iff {c : UInt8} {toks : Tokens} :
    toks.isChar c.toNat = true ↔ ∃ rest, toks = .next (.char c) rest := by
  constructor
  · intro h
    match toks with
    | .next (.char d) rest =>
      simp only [Tokens.isChar, decide_eq_true_eq] at h
      exact ⟨rest, by rw [UInt8.toNat_inj.mp h]⟩
  · rintro ⟨rest, rfl⟩
    simp [Tokens.isChar]

def ValueSound (n : Nat) : Prop := ∀ toks v rest,
  jsonParseValue n toks = .ok (v, rest) → ValueText toks v rest ∧ rest.Lexed

def MembersSound (n : Nat) : Prop := ∀ toks fields fields' rest,
  jsonParseMembers n toks fields = .ok (fields', rest) →
    MembersText toks fields fields' rest ∧ ∃ r, rest = .next (.char 0x7D) r

def ElementsSound (n : Nat) : Prop := ∀ toks elements elements' rest,
  jsonParseElements n toks elements = .ok (elements', rest) →
    ElementsText toks elements elements' rest ∧ ∃ r, rest = .next (.char 0x5D) r

/-- The steps of a value that ends with its token. -/
theorem advance_then {t : Token} {v w : Json} {rest toks : Tokens}
    (h : (do return (v, ← (Tokens.next t rest).advance) : Except String (Json × Tokens)) =
      .ok (w, toks)) : w = v ∧ toks = rest ∧ rest.Lexed := by
  obtain ⟨next, more, done⟩ := except_bind_iff.mp h
  cases done
  exact ⟨rfl, Tokens.advance_ok more⟩

/-- The steps of an object or an array: it is empty, or its parts are parsed. -/
theorem bracket_then {α : Type} {parts : Tokens → Except String (α × Tokens)} {empty v : Json}
    {w : α → Json} {c : UInt8} {t : Token} {more rest : Tokens}
    (h : (do
      let toks ← (Tokens.next t more).advance
      if toks.isChar c.toNat then return (empty, ← toks.advance)
      else
        let (a, toks) ← parts toks
        return (w a, ← toks.advance) : Except String (Json × Tokens)) = .ok (v, rest)) :
    (more = .next (.char c) rest ∧ v = empty ∧ rest.Lexed) ∨
      ∃ a toks, parts more = .ok (a, toks) ∧ toks.advance = .ok rest ∧ v = w a := by
  obtain ⟨toks, first, second⟩ := except_bind_iff.mp h
  obtain ⟨rfl, -⟩ := Tokens.advance_ok first
  by_cases closed : toks.isChar c.toNat = true
  · rw [if_pos closed] at second
    obtain ⟨r, rfl⟩ := Tokens.isChar_iff.mp closed
    obtain ⟨rfl, rfl, lexed⟩ := advance_then second
    exact .inl ⟨rfl, rfl, lexed⟩
  · rw [if_neg closed] at second
    obtain ⟨⟨a, toks'⟩, parsed, third⟩ := except_bind_iff.mp second
    obtain ⟨next, last, done⟩ := except_bind_iff.mp third
    cases done
    exact .inr ⟨a, toks', parsed, last, rfl⟩

theorem value_sound {n : Nat} (members : MembersSound n) (elements : ElementsSound n) :
    ValueSound (n + 1) := by
  intro toks v rest h
  match toks with
  | .eof => cases h
  | .error e => cases h
  | .next (.string s) more =>
    obtain ⟨rfl, rfl, lexed⟩ := advance_then h
    exact ⟨.string s rest, lexed⟩
  | .next (.number d) more =>
    obtain ⟨rfl, rfl, lexed⟩ := advance_then h
    exact ⟨.number d rest, lexed⟩
  | .next (.ident name) more =>
    simp only [jsonParseValue] at h
    cases word : jsonLiteral name with
    | none =>
      rw [word] at h
      cases h
    | some w =>
      rw [word] at h
      obtain ⟨rfl, rfl, lexed⟩ := advance_then h
      exact ⟨.literal word rest, lexed⟩
  | .next (.char c) more =>
    simp only [jsonParseValue] at h
    by_cases brace : c.toNat = 0x7B
    · rw [if_pos brace] at h
      obtain rfl : c = 0x7B := UInt8.toNat_inj.mp brace
      rcases bracket_then (c := 0x7D) (w := Json.object) h with
        ⟨rfl, rfl, lexed⟩ | ⟨fields, toks, parsed, last, rfl⟩
      · exact ⟨.emptyObject rest, lexed⟩
      · obtain ⟨text, r, rfl⟩ := members _ _ _ _ parsed
        obtain ⟨rfl, lexed⟩ := Tokens.advance_ok last
        exact ⟨.object text, lexed⟩
    · rw [if_neg brace] at h
      by_cases bracket : c.toNat = 0x5B
      · rw [if_pos bracket] at h
        obtain rfl : c = 0x5B := UInt8.toNat_inj.mp bracket
        rcases bracket_then (c := 0x5D) (w := Json.array) h with
          ⟨rfl, rfl, lexed⟩ | ⟨items, toks, parsed, last, rfl⟩
        · exact ⟨.emptyArray rest, lexed⟩
        · obtain ⟨text, r, rfl⟩ := elements _ _ _ _ parsed
          obtain ⟨rfl, lexed⟩ := Tokens.advance_ok last
          exact ⟨.array text, lexed⟩
      · rw [if_neg bracket] at h
        cases h

/-- The steps behind a part: it is the last, or a comma leads to others. -/
theorem comma_then {α : Type} {others : Tokens → Except String (α × Tokens)} {a a' : α}
    {c : UInt8} {toks rest : Tokens} {e : String}
    (h : (do
      if toks.isChar c.toNat then return (a, toks)
      else if !toks.isChar 0x2C then throw e
      else
        let toks ← toks.advance
        others toks : Except String (α × Tokens)) = .ok (a', rest)) :
    (∃ r, toks = .next (.char c) r ∧ rest = toks ∧ a' = a) ∨
      ∃ more, toks = .next (.char 0x2C) more ∧ others more = .ok (a', rest) := by
  by_cases closed : toks.isChar c.toNat = true
  · rw [if_pos closed] at h
    obtain ⟨r, rfl⟩ := Tokens.isChar_iff.mp closed
    cases h
    exact .inl ⟨r, rfl, rfl, rfl⟩
  · rw [if_neg closed] at h
    by_cases comma : toks.isChar 0x2C = true
    · obtain ⟨more, rfl⟩ := (Tokens.isChar_iff (c := 0x2C)).mp comma
      rw [if_neg (by simp [comma])] at h
      obtain ⟨toks', next, rest⟩ := except_bind_iff.mp h
      obtain ⟨rfl, -⟩ := Tokens.advance_ok next
      exact .inr ⟨toks', rfl, rest⟩
    · rw [if_pos (by simpa using comma)] at h
      cases h

theorem members_sound {n : Nat} (value : ValueSound n) (members : MembersSound n) :
    MembersSound (n + 1) := by
  intro toks fields fields' rest h
  match toks with
  | .eof => cases h
  | .error e => cases h
  | .next (.number d) more => cases h
  | .next (.ident name) more => cases h
  | .next (.char c) more => cases h
  | .next (.string name) more =>
    simp only [jsonParseMembers] at h
    obtain ⟨toks₁, first, h₁⟩ := except_bind_iff.mp h
    obtain ⟨rfl, -⟩ := Tokens.advance_ok first
    by_cases colon : toks₁.isChar 0x3A = true
    · obtain ⟨toks₂, rfl⟩ := (Tokens.isChar_iff (c := 0x3A)).mp colon
      rw [if_neg (by simp [colon])] at h₁
      obtain ⟨_, second, h₂⟩ := except_bind_iff.mp h₁
      obtain ⟨rfl, -⟩ := Tokens.advance_ok second
      obtain ⟨⟨v, toks₃⟩, parsed, h₃⟩ := except_bind_iff.mp h₂
      obtain ⟨text, -⟩ := value _ _ _ parsed
      rcases comma_then (c := 0x7D) h₃ with ⟨r, rfl, rfl, rfl⟩ | ⟨more, rfl, others⟩
      · exact ⟨.last text, r, rfl⟩
      · obtain ⟨texts, last⟩ := members _ _ _ _ others
        exact ⟨.more text texts, last⟩
    · rw [if_pos (by simpa using colon)] at h₁
      cases h₁

theorem elements_sound {n : Nat} (value : ValueSound n) (elements : ElementsSound n) :
    ElementsSound (n + 1) := by
  intro toks items items' rest h
  simp only [jsonParseElements] at h
  obtain ⟨⟨v, toks'⟩, parsed, h₁⟩ := except_bind_iff.mp h
  obtain ⟨text, -⟩ := value _ _ _ parsed
  rcases comma_then (c := 0x5D) h₁ with ⟨r, rfl, rfl, rfl⟩ | ⟨more, rfl, others⟩
  · exact ⟨.last text, r, rfl⟩
  · obtain ⟨texts, last⟩ := elements _ _ _ _ others
    exact ⟨.more text texts, last⟩

theorem parse_sound (n : Nat) : ValueSound n ∧ MembersSound n ∧ ElementsSound n := by
  induction n with
  | zero =>
    refine ⟨?_, ?_, ?_⟩
    · intro toks v rest h
      cases h
    · intro toks fields fields' rest h
      cases h
    · intro toks items items' rest h
      cases h
  | succ n ih =>
    obtain ⟨value, members, elements⟩ := ih
    exact ⟨value_sound members elements, members_sound value members,
      elements_sound value elements⟩

mutual

theorem ValueText.shorter : ∀ {toks rest : Tokens} {v : Json}, ValueText toks v rest →
    rest.length < toks.length
  | _, _, _, .string _ rest => Nat.lt_succ_self rest.length
  | _, _, _, .number _ rest => Nat.lt_succ_self rest.length
  | _, _, _, .literal _ rest => Nat.lt_succ_self rest.length
  | _, _, _, .emptyObject rest => Nat.lt_add_of_pos_right Nat.two_pos
  | _, _, _, .emptyArray rest => Nat.lt_add_of_pos_right Nat.two_pos
  | _, _, _, .object members =>
    (Nat.lt_succ_self _).trans (members.shorter.trans (Nat.lt_succ_self _))
  | _, _, _, .array items =>
    (Nat.lt_succ_self _).trans (items.shorter.trans (Nat.lt_succ_self _))

theorem MembersText.shorter : ∀ {toks rest : Tokens} {fields fields' : List (Units × Json)},
    MembersText toks fields fields' rest → rest.length < toks.length
  | _, _, _, _, .last value => value.shorter.trans (Nat.lt_add_of_pos_right Nat.two_pos)
  | _, _, _, _, .more value others =>
    others.shorter.trans <| (Nat.lt_succ_self _).trans <|
      value.shorter.trans (Nat.lt_add_of_pos_right Nat.two_pos)

theorem ElementsText.shorter : ∀ {toks rest : Tokens} {items items' : List Json},
    ElementsText toks items items' rest → rest.length < toks.length
  | _, _, _, _, .last value => value.shorter
  | _, _, _, _, .more value others =>
    others.shorter.trans ((Nat.lt_succ_self _).trans value.shorter)

end

theorem Tokens.lexed_of_length {toks : Tokens} (more : 0 < toks.length) : toks.Lexed := by
  rintro e rfl
  cases more

theorem ValueText.lexed {toks rest : Tokens} {v : Json} (h : ValueText toks v rest) : toks.Lexed :=
  Tokens.lexed_of_length (Nat.zero_lt_of_lt h.shorter)

theorem MembersText.lexed {toks rest : Tokens} {fields fields' : List (Units × Json)}
    (h : MembersText toks fields fields' rest) : toks.Lexed :=
  Tokens.lexed_of_length (Nat.zero_lt_of_lt h.shorter)

theorem ElementsText.lexed {toks rest : Tokens} {items items' : List Json}
    (h : ElementsText toks items items' rest) : toks.Lexed :=
  Tokens.lexed_of_length (Nat.zero_lt_of_lt h.shorter)

theorem Tokens.lexed_next (t : Token) (rest : Tokens) : (Tokens.next t rest).Lexed := by
  rintro e ⟨⟩

theorem ValueText.not_close {toks rest : Tokens} {v : Json} (h : ValueText toks v rest) :
    toks.isChar 0x5D = false := by
  cases h <;> rfl

theorem ElementsText.not_close {toks rest : Tokens} {items items' : List Json}
    (h : ElementsText toks items items' rest) : toks.isChar 0x5D = false := by
  cases h with
  | last value => exact value.not_close
  | more value others => exact value.not_close

theorem MembersText.not_close {toks rest : Tokens} {fields fields' : List (Units × Json)}
    (h : MembersText toks fields fields' rest) : toks.isChar 0x7D = false := by
  cases h <;> rfl

def ValueComplete (n : Nat) : Prop := ∀ toks v rest, ValueText toks v rest → rest.Lexed →
  toks.length ≤ n + rest.length → jsonParseValue n toks = .ok (v, rest)

def MembersComplete (n : Nat) : Prop := ∀ toks fields fields' rest,
  MembersText toks fields fields' rest → toks.length ≤ n + rest.length →
    jsonParseMembers n toks fields = .ok (fields', rest)

/-- One more than for the rest: the first element is parsed at the same token. -/
def ElementsComplete (n : Nat) : Prop := ∀ toks items items' rest,
  ElementsText toks items items' rest → toks.length + 1 ≤ n + rest.length →
    jsonParseElements n toks items = .ok (items', rest)

/-- A token and what `advance` finds behind it, when the value ends there. -/
theorem advance_return {t : Token} {v : Json} {rest : Tokens} (lexed : rest.Lexed) :
    (do return (v, ← (Tokens.next t rest).advance) : Except String (Json × Tokens)) =
      .ok (v, rest) :=
  except_bind_iff.mpr ⟨rest, Tokens.advance_eq t lexed, rfl⟩

section Brackets

variable {α : Type} {parts : Tokens → Except String (α × Tokens)} {empty : Json} {w : α → Json}
  {c : UInt8} {t : Token} {rest : Tokens}

theorem bracket_empty (lexed : rest.Lexed) :
    (do
      let toks ← (Tokens.next t (.next (.char c) rest)).advance
      if toks.isChar c.toNat then return (empty, ← toks.advance)
      else
        let (a, toks) ← parts toks
        return (w a, ← toks.advance) : Except String (Json × Tokens)) = .ok (empty, rest) := by
  apply except_bind_iff.mpr
  refine ⟨_, rfl, ?_⟩
  rw [if_pos (Tokens.isChar_iff.mpr ⟨rest, rfl⟩)]
  exact advance_return lexed

theorem bracket_parts {more : Tokens} {a : α} (start : more.Lexed)
    (opened : more.isChar c.toNat = false)
    (parsed : parts more = .ok (a, .next (.char c) rest)) (lexed : rest.Lexed) :
    (do
      let toks ← (Tokens.next t more).advance
      if toks.isChar c.toNat then return (empty, ← toks.advance)
      else
        let (a, toks) ← parts toks
        return (w a, ← toks.advance) : Except String (Json × Tokens)) = .ok (w a, rest) := by
  apply except_bind_iff.mpr
  refine ⟨more, Tokens.advance_eq t start, ?_⟩
  rw [if_neg (by simp [opened])]
  apply except_bind_iff.mpr
  exact ⟨_, parsed, advance_return lexed⟩

theorem comma_last {a : α} {others : Tokens → Except String (α × Tokens)} {e : String} :
    (do
      let toks := Tokens.next (.char c) rest
      if toks.isChar c.toNat then return (a, toks)
      else if !toks.isChar 0x2C then throw e
      else
        let toks ← toks.advance
        others toks : Except String (α × Tokens)) = .ok (a, .next (.char c) rest) :=
  if_pos (Tokens.isChar_iff.mpr ⟨rest, rfl⟩)

theorem comma_more {a : α} {others : Tokens → Except String (α × Tokens)} {e : String}
    (start : rest.Lexed) (other : c ≠ 0x2C) :
    (do
      let toks := Tokens.next (.char 0x2C) rest
      if toks.isChar c.toNat then return (a, toks)
      else if !toks.isChar 0x2C then throw e
      else
        let toks ← toks.advance
        others toks : Except String (α × Tokens)) = others rest := by
  have open' : (Tokens.next (.char 0x2C) rest).isChar c.toNat ≠ true := by
    intro h
    obtain ⟨r, h⟩ := Tokens.isChar_iff.mp h
    cases h
    exact other rfl
  simp only [if_neg open']
  have comma : (Tokens.next (.char 0x2C) rest).isChar 0x2C = true := rfl
  simp only [comma, Tokens.advance_eq _ start]
  rfl

end Brackets

theorem value_complete {n : Nat} (members : MembersComplete n) (elements : ElementsComplete n) :
    ValueComplete (n + 1) := by
  intro toks v rest h lexed enough
  cases h with
  | string s => exact advance_return lexed
  | number d => exact advance_return lexed
  | literal word =>
    simp only [jsonParseValue, word]
    exact advance_return lexed
  | emptyObject => exact bracket_empty (w := Json.object) lexed
  | emptyArray => exact bracket_empty (w := Json.array) lexed
  | object text =>
    apply bracket_parts (c := 0x7D) (w := Json.object) text.lexed text.not_close _ lexed
    apply members _ _ _ _ text
    simp only [Tokens.length] at enough ⊢
    omega
  | array text =>
    apply bracket_parts (c := 0x5D) (w := Json.array) text.lexed text.not_close _ lexed
    apply elements _ _ _ _ text
    simp only [Tokens.length] at enough ⊢
    omega

/-- The parser at a property: its name, the colon and its value are read. -/
theorem member_parsed {n : Nat} {name : Units} {toks rest : Tokens} {v : Json}
    (fields : List (Units × Json)) (start : toks.Lexed)
    (parsed : jsonParseValue n toks = .ok (v, rest)) :
    jsonParseMembers (n + 1) (.next (.string name) (.next (.char 0x3A) toks)) fields =
      (do
        if rest.isChar 0x7D then return (defineProperty fields name v, rest)
        else if !rest.isChar 0x2C then throw "Expected ',' or '\x7d' after property value"
        else
          let toks ← rest.advance
          jsonParseMembers n toks (defineProperty fields name v)) := by
  have colon : (Tokens.next (.char 0x3A) toks).isChar 0x3A = true := rfl
  simp only [jsonParseMembers, Tokens.advance_eq _ (Tokens.lexed_next _ _), bind, Except.bind,
    colon, Tokens.advance_eq _ start, parsed]
  rfl

theorem members_complete {n : Nat} (value : ValueComplete n) (members : MembersComplete n) :
    MembersComplete (n + 1) := by
  intro toks fields fields' rest h enough
  cases h with
  | last text =>
    have parsed := value _ _ _ text (Tokens.lexed_next _ _) (by
      simp only [Tokens.length] at enough ⊢
      omega)
    rw [member_parsed fields text.lexed parsed]
    exact comma_last (c := 0x7D)
  | more text others =>
    have shorter := others.shorter
    have parsed := value _ _ _ text (Tokens.lexed_next _ _) (by
      simp only [Tokens.length] at enough ⊢
      omega)
    rw [member_parsed fields text.lexed parsed]
    apply (comma_more (c := 0x7D) others.lexed (by decide)).trans
    apply members _ _ _ _ others
    have shorter := text.shorter
    simp only [Tokens.length] at enough shorter ⊢
    omega

theorem elements_complete {n : Nat} (value : ValueComplete n) (elements : ElementsComplete n) :
    ElementsComplete (n + 1) := by
  intro toks items items' rest h enough
  simp only [jsonParseElements]
  apply except_bind_iff.mpr
  cases h with
  | last text =>
    refine ⟨_, value _ _ _ text (Tokens.lexed_next _ _) (by omega), ?_⟩
    exact comma_last (c := 0x5D)
  | more text others =>
    have shorter := text.shorter
    have parsed := value _ _ _ text (Tokens.lexed_next _ _) (by
      have := others.shorter
      simp only [Tokens.length]
      omega)
    refine ⟨_, parsed, ?_⟩
    apply (comma_more (c := 0x5D) others.lexed (by decide)).trans
    apply elements _ _ _ _ others
    simp only [Tokens.length] at shorter
    omega

theorem parse_complete (n : Nat) : ValueComplete n ∧ MembersComplete n ∧ ElementsComplete n := by
  induction n with
  | zero =>
    refine ⟨?_, ?_, ?_⟩
    · intro toks v rest h lexed enough
      have := h.shorter
      omega
    · intro toks fields fields' rest h enough
      have := h.shorter
      omega
    · intro toks items items' rest h enough
      have := h.shorter
      omega
  | succ n ih =>
    obtain ⟨value, members, elements⟩ := ih
    exact ⟨value_complete members elements, members_complete value members,
      elements_complete value elements⟩

/-- More nested calls than the tokens can take change nothing. -/
def ValueEnough (n : Nat) : Prop := ∀ m toks, toks.Lexed → 2 * toks.length ≤ n →
  2 * toks.length ≤ m → jsonParseValue n toks = jsonParseValue m toks

def MembersEnough (n : Nat) : Prop := ∀ m toks fields, toks.Lexed → 2 * toks.length < n →
  2 * toks.length < m → jsonParseMembers n toks fields = jsonParseMembers m toks fields

def ElementsEnough (n : Nat) : Prop := ∀ m toks items, toks.Lexed → 2 * toks.length < n →
  2 * toks.length < m → jsonParseElements n toks items = jsonParseElements m toks items

/-- `bracket_then`, and what matters of the loop over the parts. -/
theorem bracket_congr {α : Type} {parts parts' : Tokens → Except String (α × Tokens)}
    {empty : Json} {w : α → Json} {c : Nat} {t : Token} {more : Tokens}
    (same : more.Lexed → parts more = parts' more) :
    (do
      let toks ← (Tokens.next t more).advance
      if toks.isChar c then return (empty, ← toks.advance)
      else
        let (a, toks) ← parts toks
        return (w a, ← toks.advance) : Except String (Json × Tokens)) =
    (do
      let toks ← (Tokens.next t more).advance
      if toks.isChar c then return (empty, ← toks.advance)
      else
        let (a, toks) ← parts' toks
        return (w a, ← toks.advance)) := by
  refine except_bind_congr fun toks first => ?_
  obtain ⟨rfl, lexed⟩ := Tokens.advance_ok first
  rw [same lexed]

/-- `comma_then`, and what matters of the calls behind the comma. -/
theorem comma_congr {α : Type} {others others' : Tokens → Except String (α × Tokens)} {a : α}
    {c : Nat} {toks : Tokens} {e : String}
    (same : ∀ more, toks = .next (.char 0x2C) more → more.Lexed → others more = others' more) :
    (do
      if toks.isChar c then return (a, toks)
      else if !toks.isChar 0x2C then throw e
      else
        let toks ← toks.advance
        others toks : Except String (α × Tokens)) =
    (do
      if toks.isChar c then return (a, toks)
      else if !toks.isChar 0x2C then throw e
      else
        let toks ← toks.advance
        others' toks) := by
  by_cases comma : toks.isChar 0x2C = true
  · obtain ⟨more, rfl⟩ := (Tokens.isChar_iff (c := 0x2C)).mp comma
    have rest : ((Tokens.next (.char 0x2C) more).advance >>= others) =
        (Tokens.next (.char 0x2C) more).advance >>= others' := by
      refine except_bind_congr fun next first => ?_
      obtain ⟨rfl, lexed⟩ := Tokens.advance_ok first
      exact same next rfl lexed
    simp only [comma, Bool.not_true, Bool.false_eq_true, if_false, rest]
  · simp only [comma, Bool.not_false, if_true]

theorem value_enough {n : Nat} (members : MembersEnough n) (elements : ElementsEnough n) :
    ValueEnough (n + 1) := by
  intro m toks lexed hn hm
  match toks with
  | .error e => exact absurd rfl (lexed e)
  | .eof => cases m <;> rfl
  | .next t more =>
    rw [Tokens.length] at hn hm
    obtain ⟨m, rfl⟩ : ∃ k, m = k + 1 := ⟨m - 1, by omega⟩
    cases t with
    | char c =>
      have fields : more.Lexed → jsonParseMembers n more [] = jsonParseMembers m more [] :=
        fun lexed => members m more [] lexed (by omega) (by omega)
      have items : more.Lexed → jsonParseElements n more [] = jsonParseElements m more [] :=
        fun lexed => elements m more [] lexed (by omega) (by omega)
      simp only [jsonParseValue]
      by_cases brace : c.toNat = 0x7B
      · rw [if_pos brace, if_pos brace]
        exact bracket_congr fields
      · rw [if_neg brace, if_neg brace]
        by_cases bracket : c.toNat = 0x5B
        · rw [if_pos bracket, if_pos bracket]
          exact bracket_congr items
        · rw [if_neg bracket, if_neg bracket]
    | string s => rfl
    | number d => rfl
    | ident name => rfl

theorem members_enough {n : Nat} (value : ValueEnough n) (members : MembersEnough n) :
    MembersEnough (n + 1) := by
  intro m toks fields lexed hn hm
  obtain ⟨m, rfl⟩ : ∃ k, m = k + 1 := ⟨m - 1, by omega⟩
  match toks with
  | .error e => exact absurd rfl (lexed e)
  | .eof => rfl
  | .next (.number d) more => rfl
  | .next (.ident name) more => rfl
  | .next (.char c) more => rfl
  | .next (.string name) more =>
    rw [Tokens.length] at hn hm
    simp only [jsonParseMembers]
    refine except_bind_congr fun toks₁ first => ?_
    obtain ⟨rfl, -⟩ := Tokens.advance_ok first
    by_cases colon : toks₁.isChar 0x3A = true
    · obtain ⟨toks₂, rfl⟩ := (Tokens.isChar_iff (c := 0x3A)).mp colon
      rw [Tokens.length] at hn hm
      rw [if_neg (by simp [colon]), if_neg (by simp [colon])]
      refine except_bind_congr fun toks₃ second => ?_
      obtain ⟨rfl, lexed₂⟩ := Tokens.advance_ok second
      rw [value m toks₃ lexed₂ (by omega) (by omega)]
      refine except_bind_congr fun part parsed => ?_
      obtain ⟨v, toks₄⟩ := part
      have shorter := ((parse_sound _).1 _ _ _ parsed).1.shorter
      refine comma_congr fun others here lexed => ?_
      obtain rfl : toks₄ = .next (.char 0x2C) others := here
      rw [Tokens.length] at shorter
      exact members m others _ lexed (by omega) (by omega)
    · rw [if_pos (by simpa using colon), if_pos (by simpa using colon)]

theorem elements_enough {n : Nat} (value : ValueEnough n) (elements : ElementsEnough n) :
    ElementsEnough (n + 1) := by
  intro m toks items lexed hn hm
  obtain ⟨m, rfl⟩ : ∃ k, m = k + 1 := ⟨m - 1, by omega⟩
  simp only [jsonParseElements]
  rw [value m toks lexed (by omega) (by omega)]
  refine except_bind_congr fun part parsed => ?_
  obtain ⟨v, toks₁⟩ := part
  have shorter := ((parse_sound _).1 _ _ _ parsed).1.shorter
  refine comma_congr fun others here lexed => ?_
  obtain rfl : toks₁ = .next (.char 0x2C) others := here
  rw [Tokens.length] at shorter
  exact elements m others _ lexed (by omega) (by omega)

theorem parse_enough (n : Nat) : ValueEnough n ∧ MembersEnough n ∧ ElementsEnough n := by
  induction n with
  | zero =>
    refine ⟨?_, ?_, ?_⟩
    · intro m toks lexed hn hm
      match toks with
      | .error e => exact absurd rfl (lexed e)
      | .eof => cases m <;> rfl
      | .next t more => exact absurd (Nat.le_zero.mp hn) (by simp [Tokens.length])
    · intro m toks fields lexed hn hm
      exact absurd hn (Nat.not_lt_zero _)
    · intro m toks items lexed hn hm
      exact absurd hn (Nat.not_lt_zero _)
  | succ n ih =>
    obtain ⟨value, members, elements⟩ := ih
    exact ⟨value_enough members elements, members_enough value members,
      elements_enough value elements⟩

/-- The bound of `parseJSON` on the nested calls is not reached: any other that is large enough for
the tokens gives the same value, or the same error. -/
theorem jsonParseValue_enough {n : Nat} {toks : Tokens} (lexed : toks.Lexed)
    (enough : 2 * toks.length ≤ n) :
    jsonParseValue n toks = jsonParseValue (2 * toks.length) toks :=
  (parse_enough n).1 _ toks lexed enough (Nat.le_refl _)

theorem Tokens.lexed_eof : Tokens.eof.Lexed := by
  rintro e ⟨⟩

/-- A buffer parses to `v` exactly when its tokens are a text of `v` and nothing else. -/
theorem parseJSON_iff {strtod : Bytes → Double} {buf : Bytes} {v : Json} :
    parseJSON strtod buf = .ok v ↔ ValueText (jsonTokens strtod buf) v .eof := by
  simp only [parseJSON]
  constructor
  · intro h
    split at h
    · cases h
    · obtain ⟨⟨w, rest⟩, parsed, done⟩ := except_bind_iff.mp h
      have text := ((parse_sound _).1 _ _ _ parsed).1
      cases rest with
      | eof =>
        cases done
        exact text
      | error e => cases done
      | next t r => cases done
  · intro h
    split
    · rename_i e error
      rw [error] at h
      cases h
    · apply except_bind_iff.mpr
      have enough : (jsonTokens strtod buf).length ≤
          2 * (jsonTokens strtod buf).length + Tokens.eof.length := by omega
      exact ⟨_, (parse_complete _).1 _ _ _ h Tokens.lexed_eof enough, rfl⟩

end Quickjs
