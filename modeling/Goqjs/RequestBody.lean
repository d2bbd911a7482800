import Goqjs.BinaryInput
import Goqjs.PreludeRequest

/-!
# The body of a request

`fetch` takes the text of its body and `lx.request` the JSON of an object, so only
a string arrives as it is.
-/

namespace Polyfill

open Quickjs Qjs

variable {E : Engine} {ε : Type}

/-- A body as the caller gives it. -/
inductive Payload where
  | string (s : Str) (text : List Char) (wellFormed : s.units = utf16 text)
  | arrayBuffer (data : Bytes)
  | view (buffer : Bytes) (offset length : Nat)

namespace Payload

def value {O : Type} : Payload → Value O
  | string s _ _ => .string s
  | arrayBuffer data => .arrayBuffer data
  | view buffer offset length => .uint8Array buffer offset length

/-- The bytes that the payload stands for. -/
def bytes : Payload → Bytes
  | string _ text _ => text.flatMap String.utf8EncodeChar
  | arrayBuffer data => data
  | view buffer offset length => viewBytes buffer offset length

/-- What `fetch` makes of the payload. -/
def fetchText : Payload → GoString
  | string s _ _ => toCStringLen s
  | arrayBuffer _ => Prelude.tag
  | view buffer offset length => viewText (viewBytes buffer offset length)

/-- The payloads that `fetch` keeps. -/
def FetchKeeps : Payload → Prop
  | string _ _ _ => True
  | arrayBuffer data => data = Prelude.tag
  | view buffer offset length => viewBytes buffer offset length = []

/-- The payloads that `lx.request` keeps. -/
def RequestKeeps : Payload → Prop
  | string _ _ _ => True
  | arrayBuffer data => data = ascii "\x7b\x7d"
  | view _ _ _ => False

theorem fetchText_eq_iff (p : Payload) : p.fetchText = p.bytes ↔ p.FetchKeeps := by
  cases p with
  | string s text wellFormed => simp [fetchText, bytes, FetchKeeps, toCStringLen_of_utf16 wellFormed]
  | arrayBuffer data => exact eq_comm
  | view buffer offset length => exact viewText_eq_iff _

end Payload

/-- The worker hands exactly these bytes to the HTTP client. -/
def FetchDelivers (toUpper : GoString → GoString) (rt : Rt E) (args : List (Value E.Obj))
    (bytes : Bytes) : Prop :=
  ∃ q, (run E (fetchRequest toUpper args : Call E.Obj Empty FetchRequest) rt).result = some q ∧
    q.bodyBytes = bytes

theorem bodyBytes_eq (q : FetchRequest) : q.bodyBytes = q.body := by
  unfold FetchRequest.bodyBytes bodyReader
  split_ifs with h
  · exact h.symm
  · rfl

theorem returns_readHeaders (headersVal : Value E.Obj) (keys : List GoString) (m : GoMap) :
    Returns (readHeaders headersVal keys m : Call E.Obj ε GoMap) fun _ => True := by
  induction keys generalizing m with
  | nil => exact Returns.pure trivial
  | cons key keys ih => exact Returns.op fun v => Returns.op fun text => ih _

theorem returns_fetchHeaders (headersVal : Value E.Obj) :
    Returns (fetchHeaders headersVal : Call E.Obj ε GoMap) fun _ => True := by
  unfold fetchHeaders
  split
  · exact Returns.op fun keys => returns_readHeaders headersVal keys []
  · exact Returns.pure trivial

theorem returns_stringOption (options : Value E.Obj) (name default : GoString)
    (f : GoString → GoString) :
    Returns (stringOption options name default f : Call E.Obj ε GoString) fun _ => True := by
  refine Returns.op fun v => ?_
  show Returns (if _ then _ else _) _
  split
  · exact Returns.op fun _ => Returns.pure trivial
  · exact Returns.pure trivial

/-- A property of a plain object is read without any effect. -/
theorem perform_get_record (fields : List (Str × Value E.Obj)) (name : GoString) (s : Rt E) :
    perform E (.get (.record fields) name) s = (E.fieldOf fields (Engine.cString name), s, []) := rfl

/-- What is read of an option, and the state after it. -/
def readOption (v : Value E.Obj) (s : Rt E) : GoString × Rt E :=
  if v.isUndefined || v.isNull then ([], s)
  else ((perform E (.string v) s).1, (perform E (.string v) s).2.1)

/-- What `fetch` reads of a body, after the URL and the method. -/
def bodyText (url method v : Value E.Obj) (s : Rt E) : GoString :=
  (readOption v (readOption method (perform E (.string url) s).2.1).2).1

/-- An option of a plain object is read as its text; an option that is left out is not converted. -/
theorem run_stringOption (fields : List (Str × Value E.Obj)) {name : GoString}
    (ends : Engine.cString name = name) (default : GoString) (f : GoString → GoString) (s : Rt E) :
    (run E (stringOption (.record fields) name default f : Call E.Obj ε GoString) s).rt =
        (readOption (E.fieldOf fields name) s).2 ∧
      (run E (stringOption (.record fields) name [] id : Call E.Obj ε GoString) s).result =
        some (readOption (E.fieldOf fields name) s).1 := by
  unfold readOption
  simp only [stringOption, Call.get_bind, run, perform_get_record, ends]
  by_cases given : (E.fieldOf fields name).isUndefined || (E.fieldOf fields name).isNull
  · rw [if_pos given, if_neg (by simpa [or_iff_not_imp_left] using given),
      if_neg (by simpa [or_iff_not_imp_left] using given)]
    exact ⟨rfl, rfl⟩
  · rw [if_neg given, if_pos (by simpa using given), if_pos (by simpa using given)]
    exact ⟨rfl, rfl⟩

/-- What `fetch` reads as the body depends on the URL and the method only through their
conversions, and not on the headers. -/
theorem fetchRequest_body (toUpper : GoString → GoString) (url : Value E.Obj)
    (fields : List (Str × Value E.Obj)) (rest : List (Value E.Obj)) (s : Rt E) :
    ∃ q, (run E (fetchRequest toUpper (url :: .record fields :: rest) : Call E.Obj ε FetchRequest)
        s).result = some q ∧
      q.body = bodyText url (E.fieldOf fields (ascii "method")) (E.fieldOf fields (ascii "body"))
        s := by
  let t := (perform E (.string url) s).2.1
  let options : Value E.Obj := .record fields
  obtain ⟨method, read, _⟩ : ∃ method, (run E (stringOption options (ascii "method") (ascii "GET")
      toUpper : Call E.Obj ε GoString) t).result = some method ∧ True :=
    returns_stringOption _ _ _ _ t
  have methodEnds : Engine.cString (ascii "method") = ascii "method" := by decide
  have bodyEnds : Engine.cString (ascii "body") = ascii "body" := by decide
  have state := (run_stringOption (ε := ε) fields methodEnds (ascii "GET") toUpper t).1
  have body := (run_stringOption (ε := ε) fields bodyEnds [] id
    (readOption (E.fieldOf fields (ascii "method")) t).2).2
  have headers (b : GoString) : Returns (.op (.get options (ascii "headers")) fun headersVal =>
      fetchHeaders headersVal >>= fun headers =>
        pure (⟨method, (perform E (.string url) s).1, b, headers⟩ : FetchRequest) :
          Call E.Obj ε FetchRequest) fun q => q.body = b :=
    Returns.op fun headersVal =>
      Returns.bind (returns_fetchHeaders headersVal) fun headers _ => Returns.pure rfl
  simp only [fetchRequest, fetchMethodBody, Value.isObject, if_true, Call.string_bind, bind_assoc,
    pure_bind]
  simp only [run, result_after]
  rw [result_bind, read, Option.bind_some, state, result_bind, body, Option.bind_some]
  exact headers _ _

theorem fetchDelivers_iff (toUpper : GoString → GoString) (rt : Rt E) (url : Value E.Obj)
    (fields : List (Str × Value E.Obj)) (rest : List (Value E.Obj)) (data : Bytes) :
    FetchDelivers toUpper rt (url :: .record fields :: rest) data ↔
      bodyText url (E.fieldOf fields (ascii "method")) (E.fieldOf fields (ascii "body")) rt =
        data := by
  obtain ⟨q, hq, body⟩ := fetchRequest_body (ε := Empty) toUpper url fields rest rt
  simp [FetchDelivers, hq, bodyBytes_eq, body]

theorem bodyText_payload (url method : Value E.Obj) (p : Payload) (s : Rt E) :
    bodyText url method p.value s = p.fetchText := by
  cases p with
  | string s text wellFormed => rfl
  | arrayBuffer data => rfl
  | view buffer offset length => exact viewText_of_view

section Request

open Prelude

variable (g : Globals E)

/-- The request of `lx.request` hands exactly these bytes to the HTTP client. -/
def RequestDelivers (toUpper : GoString → GoString) (rt : Rt E) (url : Value E.Obj)
    (o : Options E.Obj) (bytes : Bytes) : Prop :=
  ∃ q, sentRequest g toUpper url o rt = some q ∧ q.bodyBytes = bytes

/-- What takes the place of `options.body`, where `form` or `formData` is given. -/
def inPlaceOfBody (o : Options E.Obj) : Option (Script E (Value E.Obj)) :=
  if o.form.truthy then
    some (if typeofObject g.objects o.form then .string <$> formText g o.form else pure o.form)
  else if o.formData.truthy then
    some (if typeofObject g.objects o.formData then jsonStringify g o.formData
      else pure o.formData)
  else none

/-- A body is handed on if its value is true. -/
def handedOn (v : Value E.Obj) : Value E.Obj := if v.truthy then v else .undefined

/-- The method can be put in capitals. Then either neither `form` nor `formData` is given and the
payload is one that is kept, or the text of what takes its place has the same bytes. -/
def RequestCarries (rt : Rt E) (url : Value E.Obj) (o : Options E.Obj) (p : Payload) : Prop :=
  ∃ method w, requestMethod g o.method rt.world = (.ok method, w) ∧
    match inPlaceOfBody g o with
    | none => p.RequestKeeps
    | some script => ∃ v w', script w = (.ok v, w') ∧
        bodyText url method (handedOn v) { rt with world := w' } = p.bytes

/-- The text that `lx.request` makes of the payload. -/
def requestText : Payload → GoString
  | .string s _ _ => toCStringLen s
  | .arrayBuffer _ => jsonOfElements []
  | .view buffer offset length => jsonOfElements (viewBytes buffer offset length)

theorem length_jsonOfElements (data : Bytes) : data.length < (jsonOfElements data).length := by
  have long := length_joinWith (ascii ",") (data.zipIdx.map fun e =>
    ascii "\"" ++ decimal e.2 ++ ascii "\":" ++ decimal e.1.toNat) (by
      intro part mem
      obtain ⟨e, _, rfl⟩ := List.mem_map.mp mem
      simp [ascii])
  simp only [List.length_map, List.length_zipIdx] at long
  simp only [jsonOfElements, List.length_append]
  have brace : (ascii "\x7b").length = 1 := rfl
  omega

theorem requestText_eq_iff (p : Payload) : requestText p = p.bytes ↔ p.RequestKeeps := by
  cases p with
  | string s text wellFormed =>
    simp [requestText, Payload.bytes, Payload.RequestKeeps, toCStringLen_of_utf16 wellFormed]
  | arrayBuffer data => exact eq_comm
  | view buffer offset length =>
    refine iff_of_false (fun eq => ?_) not_false
    have long := length_jsonOfElements (viewBytes buffer offset length)
    have eq : jsonOfElements (viewBytes buffer offset length) = viewBytes buffer offset length := eq
    rw [eq] at long
    exact lt_irrefl _ long

theorem fetchOptions_fields (method : Value E.Obj) (b : Body E) :
    ∃ fields, fetchOptions method b = .record fields ∧
      E.fieldOf fields (ascii "method") = method ∧
      E.fieldOf fields (ascii "body") = handedOn b.1 := by
  have named : (toCStringLen (js "method") == ascii "method") = true := by decide
  have m : (toCStringLen (js "method") == ascii "body") = false := by decide
  have h : (toCStringLen (js "headers") == ascii "body") = false := by decide
  have b : (toCStringLen (js "body") == ascii "body") = true := by decide
  refine ⟨_, rfl, ?_, ?_⟩
  · simp [Engine.fieldOf, named]
  · unfold handedOn
    split_ifs <;> simp [Engine.fieldOf, List.find?, m, h, b]

/-- The body that the encoding leaves. -/
def encodedBody : Payload → Value E.Obj
  | .string s _ _ => (Value.string s).orElse .null
  | .arrayBuffer _ => .string (.narrow (jsonOfElements []))
  | .view buffer offset length => .string (.narrow (jsonOfElements (viewBytes buffer offset length)))

theorem encodeBody_eq (p : Payload) (headers : List (Str × Value E.Obj)) :
    ∃ headers', encodeBody g (p.value.orElse .null, headers) = pure (encodedBody p, headers') := by
  cases p with
  | string s text wellFormed =>
    refine ⟨headers, ?_⟩
    by_cases empty : (Value.string s : Value E.Obj).truthy
    · simp [Payload.value, encodedBody, Value.orElse, empty, encodeBody, typeofObject]
    · simp [Payload.value, encodedBody, Value.orElse, empty, encodeBody, Value.isNull]
  | arrayBuffer data => exact ⟨addType jsonType headers, rfl⟩
  | view buffer offset length => exact ⟨addType jsonType headers, rfl⟩

theorem jsonOfElements_ascii (data : Bytes) : ∀ c ∈ jsonOfElements data, c.toNat < 0x80 := by
  have parts : ∀ c ∈ joinWith (ascii ",") (data.zipIdx.map fun e =>
      ascii "\"" ++ decimal e.2 ++ ascii "\":" ++ decimal e.1.toNat), c.toNat < 0x80 := by
    refine joinWith_ascii (by decide) fun part mem c hc => ?_
    obtain ⟨e, _, rfl⟩ := List.mem_map.mp mem
    simp only [List.mem_append] at hc
    rcases hc with ((hc | hc) | hc) | hc
    · exact (by decide : ∀ c ∈ ascii "\"", c.toNat < 0x80) c hc
    · exact decimal_ascii _ c hc
    · exact (by decide : ∀ c ∈ ascii "\":", c.toNat < 0x80) c hc
    · exact decimal_ascii _ c hc
  intro c hc
  simp only [jsonOfElements, List.mem_append] at hc
  rcases hc with (hc | hc) | hc
  · exact (by decide : ∀ c ∈ ascii "\x7b", c.toNat < 0x80) c hc
  · exact parts c hc
  · exact (by decide : ∀ c ∈ ascii "\x7d", c.toNat < 0x80) c hc

/-- What `fetch` reads of the encoded body. -/
theorem bodyText_encodedBody (url method : Value E.Obj) (p : Payload) (s : Rt E) :
    bodyText url method (handedOn (encodedBody p)) s = requestText p := by
  have json (data : Bytes) : (Value.string (.narrow (jsonOfElements data)) : Value E.Obj).truthy := by
    simp [Value.truthy, jsonOfElements, Str.units, ascii]
  have text (data : Bytes) : toCStringLen (.narrow (jsonOfElements data)) = jsonOfElements data :=
    toCStringLen_of_ascii (s := .narrow _) (jsonOfElements_ascii data) rfl
  cases p with
  | string str chars wellFormed =>
    by_cases empty : str.units = []
    · have none : requestText (.string str chars wellFormed) = [] := by
        rw [requestText, toCStringLen_congr (t := .narrow []) empty]
        rfl
      have dropped : handedOn (encodedBody (.string str chars wellFormed)) =
          (.undefined : Value E.Obj) := by
        simp [handedOn, encodedBody, Value.orElse, Value.truthy, empty]
      rw [none, dropped]
      rfl
    · have kept : handedOn (encodedBody (.string str chars wellFormed)) =
          (.string str : Value E.Obj) := by
        simp [handedOn, encodedBody, Value.orElse, Value.truthy, empty]
      rw [kept]
      rfl
  | arrayBuffer data =>
    rw [encodedBody, handedOn, if_pos (json [])]
    exact text []
  | view buffer offset length =>
    rw [encodedBody, handedOn, if_pos (json _)]
    exact text _

theorem isNull_of_truthy {O : Type} {v : Value O} (h : v.truthy = true) : v.isNull = false := by
  cases v with
  | null => cases h
  | _ => rfl

/-- Where `form` or `formData` is given, the body is what takes its place. -/
theorem body_of_inPlace {o : Options E.Obj} {script : Script E (Value E.Obj)}
    (given : inPlaceOfBody g o = some script) :
    ∃ headers, (chooseBody g o >>= encodeBody g) = script >>= fun v => pure (v, headers) := by
  unfold inPlaceOfBody at given
  by_cases form : o.form.truthy = true
  · rw [if_pos form] at given
    obtain rfl := Option.some.inj given
    by_cases object : typeofObject g.objects o.form = true
    · refine ⟨addType formType o.headers.fields, ?_⟩
      have kept (text : Str) (headers : List (Str × Value E.Obj)) :
          encodeBody g ((.string text, headers) : Body E) = pure (.string text, headers) :=
        encodeBody_skip g rfl
      simp only [chooseBody, form, object, if_true, bind_assoc, pure_bind, kept, map_eq_pure_bind]
    · refine ⟨o.headers.fields, ?_⟩
      have kept : encodeBody g ((o.form, o.headers.fields) : Body E) =
          pure (o.form, o.headers.fields) :=
        encodeBody_skip g (by simp [object])
      simp [chooseBody, form, object, kept]
  · rw [if_neg form] at given
    by_cases formData : o.formData.truthy = true
    · rw [if_pos formData] at given
      obtain rfl := Option.some.inj given
      by_cases object : typeofObject g.objects o.formData = true
      · refine ⟨addType jsonType o.headers.fields, ?_⟩
        simp [chooseBody, form, formData, object, encodeBody, isNull_of_truthy formData]
      · refine ⟨o.headers.fields, ?_⟩
        have kept : encodeBody g ((o.formData, o.headers.fields) : Body E) =
            pure (o.formData, o.headers.fields) :=
          encodeBody_skip g (by simp [object])
        simp [chooseBody, form, formData, object, kept]
    · rw [if_neg formData] at given
      cases given

/-- Where neither is given, the payload is encoded. -/
theorem body_of_payload {o : Options E.Obj} {p : Payload} (body : o.body = p.value)
    (neither : inPlaceOfBody g o = none) :
    ∃ headers, (chooseBody g o >>= encodeBody g) =
      (pure (encodedBody p) : Script E (Value E.Obj)) >>= fun v => pure (v, headers) := by
  unfold inPlaceOfBody at neither
  by_cases form : o.form.truthy = true
  · rw [if_pos form] at neither
    cases neither
  · rw [if_neg form] at neither
    by_cases formData : o.formData.truthy = true
    · rw [if_pos formData] at neither
      cases neither
    · obtain ⟨headers, encoded⟩ := encodeBody_eq g p o.headers.fields
      refine ⟨headers, ?_⟩
      simp [chooseBody, form, formData, body, encoded]

/-- A request is sent if the method and the body are made without an exception, and then with the
text of this body. -/
theorem requestDelivers_iff (toUpper : GoString → GoString) (rt : Rt E) (url : Value E.Obj)
    {o : Options E.Obj} {script : Script E (Value E.Obj)} {headers : List (Str × Value E.Obj)}
    (made : (chooseBody g o >>= encodeBody g) = script >>= fun v => pure (v, headers))
    (data : Bytes) :
    RequestDelivers g toUpper rt url o data ↔ ∃ method w,
      requestMethod g o.method rt.world = (.ok method, w) ∧ ∃ v w', script w = (.ok v, w') ∧
        bodyText url method (handedOn v) { rt with world := w' } = data := by
  have whole : request g o = requestMethod g o.method >>= fun method =>
      script >>= fun v => pure (fetchOptions method (v, headers)) := by
    unfold request
    refine bind_congr fun method => ?_
    rw [← bind_assoc, made, bind_assoc]
    simp
  have sent (method v : Value E.Obj) (w' : E.World) :
      FetchDelivers toUpper { rt with world := w' } [url, fetchOptions method (v, headers)] data ↔
        bodyText url method (handedOn v) { rt with world := w' } = data := by
    obtain ⟨fields, eq, named, body⟩ := fetchOptions_fields method ((v, headers) : Body E)
    rw [eq, fetchDelivers_iff, named, body]
  constructor
  · rintro ⟨q, sentq, bytes⟩
    unfold sentRequest at sentq
    rcases ended : request g o rt.world with ⟨e | options, w'⟩
    · rw [ended] at sentq
      cases sentq
    · rw [ended] at sentq
      rw [whole] at ended
      obtain ⟨method, w, first, then_⟩ := script_bind_ok_iff.mp ended
      obtain ⟨v, w₂, second, done⟩ := script_bind_ok_iff.mp then_
      cases done
      exact ⟨method, w, first, v, w', second, (sent method v w').mp ⟨q, sentq, bytes⟩⟩
  · rintro ⟨method, w, first, v, w', second, same⟩
    have ended : request g o rt.world = (.ok (fetchOptions method (v, headers)), w') := by
      rw [whole]
      exact script_bind_ok_iff.mpr ⟨method, w, first, script_bind_ok_iff.mpr ⟨v, w', second, rfl⟩⟩
    obtain ⟨q, sentq, bytes⟩ := (sent method v w').mpr same
    refine ⟨q, ?_, bytes⟩
    rw [sentRequest, ended]
    exact sentq

end Request

open Prelude

def letterA : Payload := .string (js "A") ['A'] (by decide)

/-- Options with a body and nothing else. -/
def bodyOptions (p : Payload) : Options plainEngine.Obj where
  method := .undefined
  headers := ⟨[], List.nodup_nil⟩
  body := p.value
  form := .undefined
  formData := .undefined

end Polyfill
