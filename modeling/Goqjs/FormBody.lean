import Goqjs.RequestBody
import Goqjs.SearchParams
import Goqjs.UriComponent

/-!
# Form bodies

`lx.request` writes a form with `encodeURIComponent`, an equals sign in each pair and an ampersand
between two. None of the three separators of a query occurs in a component, so a reader of queries
finds the pairs of the form.
-/

namespace Polyfill

open Quickjs Qjs NetUrl PairLists Percent Prelude

theorem unescape_component (s : GoString) : unescape (component.encode s) .queryComponent = some s :=
  Coding.decode_encode_of ⟨rfl, by decide, by decide, fun _ _ => rfl, fun _ _ => rfl⟩ s

theorem notMem_component {c : UInt8} (hc : c ∈ [ampersand, equalsSign, semicolon, question])
    (s : GoString) : c ∉ component.encode s := by
  have facts : ∀ c ∈ [ampersand, equalsSign, semicolon, question],
      component.escaped c = true ∧ c ≠ percent ∧ Hex.value c = none := by decide
  obtain ⟨escaped, ne, notDigit⟩ := facts c hc
  exact Coding.notMem_encode escaped ne notDigit rfl s

theorem component_ascii (s : GoString) : ∀ c ∈ component.encode s, c.toNat < 0x80 := by
  intro c hc
  by_contra high
  rcases Coding.mem_encode hc with rfl | digit | form | stands
  · exact high (by decide)
  · obtain ⟨n, value⟩ := Option.ne_none_iff_exists'.mp digit
    exact high (Coding.ascii_of_value value)
  · cases form.1
  · have escaped : component.escaped c = true := by
      change (!isURIUnescaped c.toNat) = true
      rw [escaped_of_high (by omega)]
      rfl
    rw [stands.2] at escaped
    cases escaped

/-- A pair as `lx.request` writes it. -/
def formPair (p : GoString × GoString) : GoString :=
  component.encode p.1 ++ equalsSign :: component.encode p.2

def formQuery (l : List (GoString × GoString)) : GoString := joinWith [ampersand] (l.map formPair)

theorem notMem_formPair {c : UInt8} (hc : c ∈ [ampersand, semicolon, question])
    (p : GoString × GoString) : c ∉ formPair p := by
  have facts : ∀ c ∈ [ampersand, semicolon, question],
      c ∈ [ampersand, equalsSign, semicolon, question] ∧ c ≠ equalsSign := by decide
  obtain ⟨listed, ne⟩ := facts c hc
  rw [formPair, List.mem_append, List.mem_cons, not_or, not_or]
  exact ⟨notMem_component listed p.1, ne, notMem_component listed p.2⟩

theorem formQuery_ascii (l : List (GoString × GoString)) : ∀ c ∈ formQuery l, c.toNat < 0x80 := by
  refine joinWith_ascii (by decide) fun p hp c hc => ?_
  obtain ⟨q, _, rfl⟩ := List.mem_map.mp hp
  rcases List.mem_append.mp hc with hc | hc
  · exact component_ascii q.1 c hc
  · rcases List.mem_cons.mp hc with rfl | hc
    · decide
    · exact component_ascii q.2 c hc

section

variable {l : List (GoString × GoString)}

theorem noAmpersand : ∀ p ∈ l.map formPair, ampersand ∉ p := by
  intro p hp
  obtain ⟨q, _, rfl⟩ := List.mem_map.mp hp
  exact notMem_formPair (by decide) q

/-- A reader of queries finds the pairs of the form. -/
theorem queryPairs_formQuery (ne : l ≠ []) : queryPairs (formQuery l) = some l := by
  refine queryPairs_joinWith (by simpa using ne) noAmpersand ?_
  rw [List.map_map]
  refine List.map_congr_left fun p _ => ?_
  exact parsePair_glue (notMem_formPair (by decide) p) (notMem_component (by decide) p.1)
    (unescape_component p.1) (unescape_component p.2)

theorem count_formQuery (ne : l ≠ []) : (formQuery l).count ampersand + 1 = l.length := by
  rw [← length_pieces, formQuery, pieces_joinWith (by simpa using ne) noAmpersand, List.length_map]

theorem trimQuestion_formQuery : trimQuestion (formQuery l) = formQuery l := by
  have noQuestion : ∀ c ∈ formQuery l, c ≠ question := by
    refine forall_mem_joinWith (by decide) fun p hp c hc => ?_
    obtain ⟨q, _, rfl⟩ := List.mem_map.mp hp
    rintro rfl
    exact notMem_formPair (by decide) q hc
  exact if_neg fun first => noQuestion _ (List.mem_of_mem_head? first) rfl

end

/-- The text of a form whose pairs are texts. -/
def formBody (pairs : List (Str × Str)) : Str :=
  .wide (latin1 (formQuery (pairs.map (Prod.map toCStringLen toCStringLen))))

theorem toCStringLen_formBody (pairs : List (Str × Str)) : toCStringLen (formBody pairs) =
    formQuery (pairs.map (Prod.map toCStringLen toCStringLen)) :=
  (toCStringLen_latin1_iff rfl).mpr (formQuery_ascii _)

theorem flatten_intersperse (l : List GoString) :
    ((l.map latin1).intersperse [0x26]).flatten = latin1 (joinWith [ampersand] l) := by
  induction l using joinWith.induct with
  | case1 => rfl
  | case2 a => simp [joinWith]
  | case3 a rest notNil ih =>
    obtain ⟨b, rest, rfl⟩ := List.exists_cons_of_ne_nil notNil
    rw [List.map_cons] at ih
    rw [List.map_cons, List.map_cons, List.intersperse_cons_cons, List.flatten_cons, List.flatten_cons, ih, joinWith.eq_3 _ _ _ notNil]
    simp [latin1]

section

variable {E : Engine}

/-- The script returns such a value in every world. -/
def Yields {α : Type} (c : Script E α) (P : α → Prop) : Prop :=
  ∀ w, ∃ a w', c w = (.ok a, w') ∧ P a

theorem Yields.pure {α : Type} {P : α → Prop} {a : α} (h : P a) :
    Yields (Pure.pure a : Script E α) P := fun w => ⟨a, w, rfl, h⟩

theorem Yields.bind {α β : Type} {c : Script E α} {f : α → Script E β} {P : α → Prop}
    {Q : β → Prop} (h : Yields c P) (next : ∀ a, P a → Yields (f a) Q) : Yields (c >>= f) Q := by
  intro w
  obtain ⟨a, w', first, ha⟩ := h w
  obtain ⟨b, w'', second, hb⟩ := next a ha w'
  refine ⟨b, w'', ?_, hb⟩
  change (StateT.bind c (ExceptT.bindCont f) : StateT E.World Id _) w = _
  simp only [StateT.bind, first]
  exact second

theorem Yields.mapM {α β : Type} {f : α → Script E β} {g : α → β} {l : List α}
    (h : ∀ a ∈ l, Yields (f a) fun b => b = g a) : Yields (l.mapM f) fun bs => bs = l.map g := by
  induction l with
  | nil => exact Yields.pure rfl
  | cons a l ih =>
    rw [List.mapM_cons]
    refine Yields.bind (h a List.mem_cons_self) fun b hb => ?_
    refine Yields.bind (ih fun d hd => h d (List.mem_cons_of_mem _ hd)) fun bs hbs => ?_
    exact Yields.pure (by rw [hb, hbs, List.map_cons])

/-- The engine's `encodeURIComponent` writes a string as the source does. -/
def EncodesComponents (g : Globals E) : Prop := ∀ (s : Str) (u : Units),
  encodeURIComponent s.units = some u →
    Yields (g.encodeURIComponent (.string s)) fun t => t.units = u

/-- An object with these own enumerable properties; names and values are Unicode texts. -/
structure HasForm (g : Globals E) (form : Value E.Obj) (pairs : List (Str × Str)) : Prop where
  truthy : form.truthy = true
  isObject : typeofObject g.objects form = true
  keys : Yields (g.objectKeys form) fun keys => keys = pairs.map Prod.fst
  values : ∀ p ∈ pairs, Yields (g.getField form p.1) fun v => v = .string p.2
  distinct : (pairs.map fun p => p.1.units).Nodup
  unicode : ∀ p ∈ pairs, (∃ text, p.1.units = utf16 text) ∧ ∃ text, p.2.units = utf16 text

variable {g : Globals E} {form : Value E.Obj} {pairs : List (Str × Str)}

theorem yields_component (encodes : EncodesComponents g) {s : Str} {text : List Char}
    (h : s.units = utf16 text) : Yields (g.encodeURIComponent (.string s)) fun t =>
      t.units = latin1 (component.encode (toCStringLen s)) :=
  encodes s _ (encodeURIComponent_of_utf16 h)

theorem yields_formPart (encodes : EncodesComponents g) (has : HasForm g form pairs)
    {p : Str × Str} (h : p ∈ pairs) : Yields (formPart g form p.1) fun part =>
      part = latin1 (formPair (toCStringLen p.1, toCStringLen p.2)) := by
  obtain ⟨⟨_, name⟩, ⟨_, value⟩⟩ := has.unicode p h
  refine Yields.bind (yields_component encodes name) fun t ht => ?_
  refine Yields.bind (has.values p h) fun v hv => ?_
  subst hv
  refine Yields.bind (yields_component encodes value) fun t' ht' => Yields.pure ?_
  rw [ht, ht', formPair]
  simp [latin1]

theorem yields_formText (encodes : EncodesComponents g) (has : HasForm g form pairs) :
    Yields (formText g form) fun text => text = formBody pairs := by
  refine Yields.bind has.keys fun keys hkeys => ?_
  subst hkeys
  have parts : Yields ((pairs.map Prod.fst).mapM (formPart g form)) fun parts =>
      parts = (pairs.map (Prod.map toCStringLen toCStringLen)).map (latin1 ∘ formPair) := by
    have each : Yields (pairs.mapM fun p => formPart g form p.1) fun parts =>
        parts = pairs.map fun p => latin1 (formPair (toCStringLen p.1, toCStringLen p.2)) :=
      Yields.mapM fun p hp => yields_formPart encodes has hp
    rw [List.mapM_map, List.map_map]
    exact each
  refine Yields.bind parts fun parts hparts => Yields.pure ?_
  rw [hparts, ← List.map_map, flatten_intersperse]
  rfl

variable {o : Options E.Obj}

theorem yields_chooseBody (encodes : EncodesComponents g) (has : HasForm g o.form pairs) :
    Yields (chooseBody g o) fun b => b.1 = .string (formBody pairs) := by
  unfold chooseBody
  rw [if_pos has.truthy, if_pos has.isObject]
  exact Yields.bind (yields_formText encodes has) fun text htext => Yields.pure (by rw [htext])

/-- A string is left as it is. -/
theorem yields_encodeBody {b : Body E} {text : Str} (h : b.1 = .string text) :
    Yields (encodeBody g b) fun b' => b'.1 = .string text := by
  have notObject : (!b.1.isNull && typeofObject g.objects b.1) = false := by
    rw [h]
    rfl
  unfold encodeBody
  rw [notObject]
  exact Yields.pure h

theorem formBody_truthy (ne : pairs ≠ []) :
    (Value.string (formBody pairs) : Value E.Obj).truthy = true := by
  have nonempty : (formBody pairs).units ≠ [] := by
    intro empty
    have text : toCStringLen (formBody pairs) = [] := toCStringLen_congr (t := .narrow []) empty
    rw [toCStringLen_formBody] at text
    have read := queryPairs_formQuery (l := pairs.map (Prod.map toCStringLen toCStringLen))
      (by simpa using ne)
    rw [text] at read
    exact ne (List.map_eq_nil_iff.mp (Option.some.inj read).symm)
  simpa [Value.truthy] using nonempty

/-- What reaches `fetch` as the body, unless the method is no string. -/
theorem yields_request (encodes : EncodesComponents g) (has : HasForm g o.form pairs)
    (ne : pairs ≠ []) (method : ∃ s, o.method.orElse (.string (js "GET")) = .string s) :
    Yields (request g o) fun options => ∃ fields, options = .record fields ∧
      E.fieldOf fields (ascii "body") = .string (formBody pairs) := by
  obtain ⟨s, method⟩ := method
  have upper : requestMethod g o.method = pure (.string (g.toUpperCase s)) := by
    rw [requestMethod, method]
  unfold request
  rw [upper, pure_bind]
  refine Yields.bind (yields_chooseBody encodes has) fun b hb => ?_
  refine Yields.bind (yields_encodeBody hb) fun b' hb' => Yields.pure ?_
  obtain ⟨fields, eq, _, read⟩ := fetchOptions_fields (.string (g.toUpperCase s)) b'
  refine ⟨fields, eq, ?_⟩
  rw [read, hb', handedOn, if_pos (formBody_truthy ne)]

/-- The pairs of the form as JavaScript compares them. -/
def formPairs (pairs : List (Str × Str)) : Pairs := pairs.map (Prod.map Str.units Str.units)

theorem bytePairs_formPairs (pairs : List (Str × Str)) :
    bytePairs (formPairs pairs) = pairs.map (Prod.map toCStringLen toCStringLen) := by
  unfold bytePairs formPairs
  rw [List.map_map]
  exact List.map_congr_left fun p _ => Prod.ext (bytesOf_units p.1) (bytesOf_units p.2)

theorem holds_formBody (ne : pairs ≠ []) (few : pairs.length ≤ maxParams) (t : Rt E) :
    ∃ params, (run E (URLSearchParams [.string (formBody pairs)] : Call E.Obj Empty Values)
      t).result = some params ∧ Holds params (formPairs pairs) := by
  have ne' : pairs.map (Prod.map toCStringLen toCStringLen) ≠ [] := by simpa using ne
  simp only [Holds, bytePairs_formPairs]
  refine params_of_text (queryPairs_formQuery ne') ?_ ?_ t
  · rw [count_formQuery ne', List.length_map]
    exact few
  · rw [toCStringLen_formBody, trimQuestion_formQuery]

theorem has_formPairs (key : Units) (pairs : List (Str × Str)) :
    PairLists.has key (formPairs pairs) = true ↔ ∃ p ∈ pairs, p.1.units = key := by
  simp [PairLists.has, formPairs]

theorem get_formPairs (distinct : (pairs.map fun p => p.1.units).Nodup) {p : Str × Str}
    (h : p ∈ pairs) : PairLists.get p.1.units (formPairs pairs) = some p.2.units := by
  have names : ((formPairs pairs).map Prod.fst).Nodup := by
    rw [formPairs, List.map_map]
    exact distinct
  have mem : (p.1.units, p.2.units) ∈ formPairs pairs :=
    List.mem_map_of_mem (f := Prod.map Str.units Str.units) h
  rw [PairLists.get, valuesOf_of_mem names mem]
  rfl

/-- The body that `lx.request` builds of a form is read by `URLSearchParams` as the form: it has the
names of the form and no others, and `get` gives the value of every name. -/
theorem form_body_decodes (g : Globals E) (encodes : EncodesComponents g) (o : Options E.Obj)
    (pairs : List (Str × Str)) (has : HasForm g o.form pairs) (ne : pairs ≠ [])
    (few : pairs.length ≤ maxParams) : ∃ text : Str,
    Yields (chooseBody g o >>= encodeBody g) (fun b => b.1 = .string text) ∧
    ((∃ s, o.method.orElse (.string (js "GET")) = .string s) →
      Yields (request g o) fun options => ∃ fields, options = .record fields ∧
        E.fieldOf fields (ascii "body") = .string text) ∧
    ∀ t : Rt E, ∃ params,
      (run E (URLSearchParams [.string text] : Call E.Obj Empty Values) t).result = some params ∧
      (∀ (key : Str) (s : Rt E), ∃ known,
        (run E (paramsHas params [.string key]) s).result = some (.bool known) ∧
          (known = true ↔ ∃ p ∈ pairs, p.1.units = key.units)) ∧
      ∀ p ∈ pairs, ∀ (key : Str) (s : Rt E), key.units = p.1.units → ∃ v : Str,
        (run E (paramsGet params [.string key]) s).result = some (.string v) ∧
          v.units = p.2.units := by
  refine ⟨formBody pairs, ?_, yields_request encodes has ne, fun t => ?_⟩
  · exact Yields.bind (yields_chooseBody encodes has) fun b hb => yields_encodeBody hb
  · obtain ⟨params, constructed, holds⟩ := holds_formBody (E := E) ne few t
    refine ⟨params, constructed, fun key s => ?_, fun p hp key s same => ?_⟩
    · exact ⟨_, holds.answer (.has key) s, has_formPairs key.units pairs⟩
    · have answer := holds.answer (.get key) s
      simp only [Answer, same, get_formPairs has.distinct hp] at answer
      exact answer

end

/-- The plain functions with the engine's `encodeURIComponent` for strings. -/
def formGlobals : Globals plainEngine :=
  { plainGlobals with
    encodeURIComponent
      | .string s =>
        match encodeURIComponent s.units with
        | some u => return .wide u
        | none => throw (.typeError "invalid character")
      | _ => return js "" }

/-- The form with the pairs of `a&b` and `=` and of a Chinese and a French letter. -/
def twoPairs : List (Str × Str) := [(js "a&b", js "="), (.wide [0x4E2D], .narrow [0xE9])]

def formOptions : Options plainEngine.Obj where
  method := .undefined
  headers := ⟨[], List.nodup_nil⟩
  body := .undefined
  form := .record (twoPairs.map fun p => (p.1, .string p.2))
  formData := .undefined

theorem twoPairs_has : HasForm formGlobals formOptions.form twoPairs where
  truthy := rfl
  isObject := rfl
  keys := fun w => ⟨_, w, rfl, rfl⟩
  values := by
    intro p hp w
    rcases List.mem_pair.mp hp with rfl | rfl
    · exact ⟨_, w, rfl, rfl⟩
    · exact ⟨_, w, rfl, rfl⟩
  distinct := by decide
  unicode := by
    intro p hp
    rcases List.mem_pair.mp hp with rfl | rfl
    · exact ⟨⟨['a', '&', 'b'], by decide⟩, ⟨['='], by decide⟩⟩
    · exact ⟨⟨['中'], by decide⟩, ⟨['é'], by decide⟩⟩

theorem formGlobals_encodes : EncodesComponents formGlobals := by
  intro s u h w
  refine ⟨.wide u, w, ?_, rfl⟩
  simp only [formGlobals, h]
  rfl

theorem form_body_decodes_two : ∃ text : Str,
    Yields (chooseBody formGlobals formOptions >>= encodeBody formGlobals)
      (fun b => b.1 = .string text) ∧
    ((∃ s, formOptions.method.orElse (.string (js "GET")) = .string s) →
      Yields (request formGlobals formOptions) fun options => ∃ fields,
        options = .record fields ∧ plainEngine.fieldOf fields (ascii "body") = .string text) ∧
    ∀ t : Rt plainEngine, ∃ params,
      (run plainEngine (URLSearchParams [.string text] : Call Empty Empty Values) t).result =
        some params ∧
      (∀ (key : Str) (s : Rt plainEngine), ∃ known,
        (run plainEngine (paramsHas params [.string key]) s).result = some (.bool known) ∧
          (known = true ↔ ∃ p ∈ twoPairs, p.1.units = key.units)) ∧
      ∀ p ∈ twoPairs, ∀ (key : Str) (s : Rt plainEngine), key.units = p.1.units → ∃ v : Str,
        (run plainEngine (paramsGet params [.string key]) s).result = some (.string v) ∧
          v.units = p.2.units :=
  form_body_decodes formGlobals formGlobals_encodes formOptions twoPairs twoPairs_has (by decide)
    (by decide)

end Polyfill
