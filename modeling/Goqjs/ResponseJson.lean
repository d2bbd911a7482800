import Goqjs.JsonDecoding
import Goqjs.PolyfillFunctions

/-!
# The body of a response as text and as JSON

`text()` makes a string of the body and `json()` gives its bytes to the parser. A reader of the text
can parse it too, as `lx.request` does; the two ways part where the body has encoding errors.
-/

namespace Polyfill

open Quickjs Qjs Binary64

/-- Objects and arrays that the parser makes, and the error that it throws. -/
structure Boxes (O : Type) where
  composite : Json → O
  syntaxError : String → O

namespace Boxes

variable {O : Type} (b : Boxes O)

def value : Json → Value O
  | .null => .null
  | .bool x => .bool x
  | .number d => .number (.float64 d)
  | .string s => .string (.wide s)
  | .array elements => .object (b.composite (.array elements))
  | .object fields => .object (b.composite (.object fields))

def result : Except String Json → Except (Value O) (Value O)
  | .ok v => .ok (b.value v)
  | .error e => .error (.object (b.syntaxError e))

variable (strtod : Bytes → Double)

/-- `JS_ParseJSON` as `Context.ParseJSON` calls it. -/
def ofBytes (jsonStr : GoString) : Except (Value O) (Value O) := b.result (parseJSON strtod jsonStr)

/-- `JSON.parse` of a string. -/
def ofString (text : Str) : Except (Value O) (Value O) := b.result (jsonParse strtod text)

theorem result_ok_iff {r : Except String Json} : (∃ v, b.result r = .ok v) ↔ ∃ v, r = .ok v := by
  cases r with
  | error e => exact ⟨nofun, nofun⟩
  | ok v => exact ⟨fun _ => ⟨v, rfl⟩, fun _ => ⟨_, rfl⟩⟩

end Boxes

section Agreement

variable {E : Engine}

/-- `json()` gives what `JSON.parse` makes of the text, and is rejected where that throws. -/
structure JsonAgrees (strtod : Bytes → Double) (b : Boxes E.Obj) (s : Rt E) (respBody : Bytes)
    (text : Str) : Prop where
  fulfilled : ∀ v, (run E (responseJson (b.ofBytes strtod respBody)) s).result =
    some (.fulfilled v) ↔ b.ofString strtod text = .ok v
  rejected : (∃ reason, (run E (responseJson (b.ofBytes strtod respBody)) s).result =
    some (.rejected reason)) ↔ ∃ exc, b.ofString strtod text = .error exc

/-- By the grammar alone. -/
def IsJsonText (strtod : Bytes → Double) (p : Bytes) : Prop :=
  ∃ v, ValueText (jsonTokens strtod p) v .eof

theorem isJsonText_iff {strtod : Bytes → Double} {p : Bytes} :
    IsJsonText strtod p ↔ ∃ v, parseJSON strtod p = .ok v :=
  exists_congr fun _ => parseJSON_iff.symm

/-- The text of an exception can be read, whatever reading it does. -/
theorem returns_exceptionText (exc : Value E.Obj) : Returns (exceptionText exc) fun _ => True := by
  apply Returns.op
  intro msg
  apply Returns.op
  intro stack
  change Returns (if stack.isUndefined then _ else _) _
  split_ifs
  · exact .pure trivial
  · apply Returns.op
    intro text
    exact .pure trivial

theorem returns_rejected (exc : Value E.Obj) :
    Returns (responseJson (.error exc)) fun p => ∃ reason, p = .rejected reason := by
  intro s
  have read : Returns (E := E) (exceptionText exc >>= fun text =>
      return Settled.rejected (.newString (ascii "json parse error: " ++ text)))
      fun p : Settled E.Obj => ∃ reason, p = .rejected reason := by
    apply (returns_exceptionText exc).bind
    intro text _
    exact .pure ⟨_, rfl⟩
  exact read { s with pending := none }

theorem responseJson_fulfilled_iff {parsed : Except (Value E.Obj) (Value E.Obj)} {s : Rt E}
    {v : Value E.Obj} :
    (run E (responseJson parsed) s).result = some (.fulfilled v) ↔ parsed = .ok v := by
  cases parsed with
  | ok w => simp [responseJson]
  | error exc =>
    obtain ⟨p, result, reason, rfl⟩ := returns_rejected exc s
    rw [result]
    exact ⟨nofun, nofun⟩

theorem responseJson_rejected_iff {parsed : Except (Value E.Obj) (Value E.Obj)} {s : Rt E} :
    (∃ reason, (run E (responseJson parsed) s).result = some (.rejected reason)) ↔
      ∃ exc, parsed = .error exc := by
  cases parsed with
  | ok w => simp [responseJson]
  | error exc =>
    obtain ⟨p, result, reason, rfl⟩ := returns_rejected exc s
    exact ⟨fun _ => ⟨exc, rfl⟩, fun _ => ⟨reason, result⟩⟩

variable {strtod : Bytes → Double} {b : Boxes E.Obj} {s : Rt E} {respBody : Bytes}

theorem jsonAgrees_of_errorFree (h : ErrorFree respBody) :
    JsonAgrees strtod b s respBody (newStringLen respBody) := by
  have same : b.ofString strtod (newStringLen respBody) = b.ofBytes strtod respBody :=
    congrArg b.result (parseJSON_viaString h)
  constructor
  · intro v
    rw [same]
    exact responseJson_fulfilled_iff
  · rw [same]
    exact responseJson_rejected_iff

/-- Neither way accepts a body whose text is no JSON. -/
theorem jsonAgrees_of_noJsonText (h : ¬ IsJsonText strtod (viaString respBody)) :
    JsonAgrees strtod b s respBody (newStringLen respBody) := by
  have throws : ∃ e, jsonParse strtod (newStringLen respBody) = .error e := by
    cases parsed : jsonParse strtod (newStringLen respBody) with
    | error e => exact ⟨e, rfl⟩
    | ok v => exact absurd (isJsonText_iff.mpr ⟨v, parsed⟩) h
  have rejects : ∃ e, parseJSON strtod respBody = .error e := by
    cases parsed : parseJSON strtod respBody with
    | error e => exact ⟨e, rfl⟩
    | ok v => exact absurd (isJsonText_iff.mpr ⟨v, (parseJSON_ok_iff.mp parsed).2⟩) h
  obtain ⟨e, throws⟩ := throws
  obtain ⟨e', rejects⟩ := rejects
  constructor
  · intro v
    rw [responseJson_fulfilled_iff, Boxes.ofString, Boxes.ofBytes, throws, rejects]
    exact ⟨nofun, nofun⟩
  · rw [responseJson_rejected_iff, Boxes.ofString, Boxes.ofBytes, throws, rejects]
    exact ⟨fun _ => ⟨_, rfl⟩, fun _ => ⟨_, rfl⟩⟩

/-- For every body, `json()` agrees with `JSON.parse` of what `text()` gives exactly if the body has
no encoding error or its text, a `U+FFFD` for each of them, is no JSON. -/
theorem response_json_agrees_iff (strtod : Bytes → Double) (b : Boxes E.Obj) (s : Rt E)
    (respBody : Bytes) :
    (∃ text, (run E (responseText respBody) s).result = some (.fulfilled (.string text)) ∧
      JsonAgrees strtod b s respBody text) ↔
    ErrorFree respBody ∨ ¬ IsJsonText strtod (viaString respBody) := by
  constructor
  · rintro ⟨text, result, agrees⟩
    obtain rfl : newStringLen respBody = text := by
      cases result
      rfl
    by_contra neither
    obtain ⟨errors, isText⟩ := not_or.mp neither
    obtain ⟨v, parsed⟩ := isJsonText_iff.mp (not_not.mp isText)
    have ofString : b.ofString strtod (newStringLen respBody) = .ok (b.value v) :=
      congrArg b.result parsed
    have fulfilled := (agrees.fulfilled _).mpr ofString
    have accepted := responseJson_fulfilled_iff.mp fulfilled
    obtain ⟨w, parsed'⟩ := b.result_ok_iff.mp ⟨_, accepted⟩
    exact errors (errorFree_of_parseJSON parsed')
  · intro condition
    refine ⟨newStringLen respBody, rfl, ?_⟩
    rcases condition with errorFree | noText
    · exact jsonAgrees_of_errorFree errorFree
    · exact jsonAgrees_of_noJsonText noText

end Agreement

/-- An engine whose objects are what its parser has made. -/
def parserEngine : Engine where
  World := Unit
  Obj := Json ⊕ String
  Exn := Empty
  toString o _ := (.ok (o.elim (fun _ => js "") (fun e => js ("SyntaxError: " ++ e))), ())
  toNumber _ _ := (.ok (.int32 0), ())
  getProperty _ _ _ := (.ok .undefined, ())
  ownKeys _ _ := (.ok [], ())
  getArrayBuffer _ _ := none
  leaves _ _ pending := pending
  numberToString _ := js ""
  stringToNumber _ := .int32 0

def parserBoxes : Boxes parserEngine.Obj := ⟨Sum.inl, Sum.inr⟩

def parserRt : Rt parserEngine := ⟨(), none⟩

/-- A string literal with a byte that is no UTF-8: `json()` rejects, the text parses. -/
theorem response_json_agrees_fails :
    (run parserEngine (responseJson (parserBoxes.ofBytes (fun _ => ofInt 0) [0x22, 0xFF, 0x22]))
      parserRt).result =
        some (.rejected (.newString (ascii "json parse error: SyntaxError: Bad UTF-8 sequence"))) ∧
    parserBoxes.ofString (fun _ => ofInt 0) (newStringLen [0x22, 0xFF, 0x22]) =
      .ok (.string (.wide [0xFFFD])) ∧
    ¬ ∃ text, (run parserEngine (responseText [0x22, 0xFF, 0x22]) parserRt).result =
        some (.fulfilled (.string text)) ∧
      JsonAgrees (fun _ => ofInt 0) parserBoxes parserRt [0x22, 0xFF, 0x22] text := by
  have parsed : parserBoxes.ofString (fun _ => ofInt 0) (newStringLen [0x22, 0xFF, 0x22]) =
      .ok (.string (.wide [0xFFFD])) := rfl
  refine ⟨rfl, parsed, ?_⟩
  rintro ⟨text, result, agrees⟩
  cases result
  have fulfilled := (agrees.fulfilled _).mpr parsed
  cases responseJson_fulfilled_iff.mp fulfilled

end Polyfill
