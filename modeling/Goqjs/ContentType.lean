import Goqjs.RequestBody
import Mathlib.Data.List.Nodup
import Mathlib.Data.List.TakeWhile

/-!
# The Content-Type of lx.request

The prelude looks for two spellings of the name; the worker writes every spelling of
the map under one canonical name, in the order in which it ranges over the map.
-/

namespace Prelude

open Quickjs Qjs Polyfill Merges

variable {E : Engine} {ε : Type}

/-- The own keys of a plain object, as Go sees them. -/
def keysOf {O : Type} (fields : List (Str × Value O)) : List GoString :=
  fields.map fun f => toCStringLen f.1

/-- The text of a value, and the state after its conversion. -/
def readText (v : Value E.Obj) (rt : Rt E) : GoString × Rt E :=
  ((perform E (.string v) rt).1, (perform E (.string v) rt).2.1)

/-- The text that `fetch` reads for each key, in order. -/
def headerTexts (fields : List (Str × Value E.Obj)) : List GoString → Rt E → GoMap
  | [], _ => []
  | key :: keys, rt =>
    let (text, rt') := readText (E.fieldOf fields (Engine.cString key)) rt
    (key, text) :: headerTexts fields keys rt'

/-- The headers that the caller supplies, read in this state. -/
def callerHeaders (o : Options E.Obj) (rt : Rt E) : GoMap :=
  headerTexts o.headers.fields (keysOf o.headers.fields) rt

/-- The state in which `fetch` comes to the headers. -/
def atHeaders (toUpper : GoString → GoString) (url options : Value E.Obj) (rt : Rt E) : Rt E :=
  (run E (Call.string url >>= fun _ => fetchMethodBody toUpper options :
    Call E.Obj Empty (GoString × GoString)) rt).rt

/-- The type that matches how the body is encoded, if it is. -/
def encodedType (g : Globals E) (o : Options E.Obj) : Option GoString :=
  if o.form.truthy then if typeofObject g.objects o.form then some formType else none
  else
    let body := if o.formData.truthy then o.formData else o.body.orElse .null
    if !body.isNull && typeofObject g.objects body then some jsonType else none

/-- The type that the prelude adds: it finds neither spelling with a true value. -/
def addedType (g : Globals E) (o : Options E.Obj) : Option GoString :=
  if !(getName o.headers.fields contentType).truthy &&
      !(getName o.headers.fields (ascii "content-type")).truthy then encodedType g o
  else none

/-- For every order of the map: one value at most; the caller's where the caller supplies the
name in any spelling, else the type of the encoding; and the same header in every order. -/
def ContentTypeRight (callers sent : GoMap) (type : Option GoString) : Prop :=
  ∀ order : GoMap, order.Perm sent →
    (sentHeader order contentType).length ≤ 1 ∧
    (∀ e ∈ callers, canonicalMIMEHeaderKey e.1 = contentType →
      sentHeader order contentType = [e.2]) ∧
    ((∀ e ∈ callers, canonicalMIMEHeaderKey e.1 ≠ contentType) →
      sentHeader order contentType = type.toList) ∧
    ∀ order' : GoMap, order'.Perm sent → sentHeader order = sentHeader order'

/-- Spellings of one name have one value, and the spellings of the type that is added have it. -/
def HeadersAgree (callers : GoMap) (added : Option GoString) : Prop :=
  (∀ e ∈ callers, ∀ e' ∈ callers,
    canonicalMIMEHeaderKey e.1 = canonicalMIMEHeaderKey e'.1 → e.2 = e'.2) ∧
  ∀ type, added = some type → ∀ e ∈ callers, canonicalMIMEHeaderKey e.1 = contentType → e.2 = type

theorem canonical_contentType : canonicalMIMEHeaderKey contentType = contentType := by decide

theorem canonical_lower : canonicalMIMEHeaderKey (ascii "content-type") = contentType := by decide

theorem sentHeader_of_mem {order : GoMap} {e : GoString × GoString} (h : e ∈ order) :
    ∃ e' ∈ order, canonicalMIMEHeaderKey e'.1 = canonicalMIMEHeaderKey e.1 ∧
      sentHeader order (canonicalMIMEHeaderKey e.1) = [e'.2] :=
  merge_of_mem h

theorem sentHeader_last (order : GoMap) (e : GoString × GoString) :
    sentHeader (order ++ [e]) (canonicalMIMEHeaderKey e.1) = [e.2] :=
  merge_last e

theorem sentHeader_of_notMem {order : GoMap} {name : GoString}
    (h : ∀ e ∈ order, canonicalMIMEHeaderKey e.1 ≠ name) : sentHeader order name = [] :=
  merge_of_notMem h

theorem length_sentHeader (order : GoMap) (name : GoString) :
    (sentHeader order name).length ≤ 1 := by
  by_cases h : ∃ e ∈ order, canonicalMIMEHeaderKey e.1 = name
  · obtain ⟨e, he, rfl⟩ := h
    obtain ⟨e', _, _, eq⟩ := sentHeader_of_mem he
    simp [eq]
  · rw [sentHeader_of_notMem fun e he eq => h ⟨e, he, eq⟩]
    exact Nat.zero_le 1

/-- The order of a map does not matter exactly if the spellings of each name agree. -/
theorem sentHeader_perm_iff (sent : GoMap) : (∀ order order' : GoMap, order.Perm sent →
    order'.Perm sent → sentHeader order = sentHeader order') ↔
      ∀ e ∈ sent, ∀ e' ∈ sent, canonicalMIMEHeaderKey e.1 = canonicalMIMEHeaderKey e'.1 →
        e.2 = e'.2 := by
  refine merge_perm_iff.trans (forall₄_congr fun e _ e' _ => ?_)
  simp

theorem canonicalCase_ne_zero (upper : Bool) {name : GoString}
    (valid : ∀ c ∈ name, validHeaderFieldByte c = true) : ∀ c ∈ canonicalCase upper name, c ≠ 0 := by
  induction name generalizing upper with
  | nil => simp [canonicalCase]
  | cons a rest ih =>
    have zero : validHeaderFieldByte 0 = false := by decide
    have nonzero : a ≠ 0 := by
      rintro rfl
      exact absurd (valid 0 List.mem_cons_self) (by simp [zero])
    intro c hc
    rcases List.mem_cons.mp hc with rfl | hc
    · split_ifs with up low
      · simp only [Bool.and_eq_true, decide_eq_true_eq] at up
        grind
      · simp only [Bool.and_eq_true, decide_eq_true_eq] at low
        grind
      · exact nonzero
    · exact ih _ (fun c hc => valid c (List.mem_cons_of_mem a hc)) c hc

/-- A name with a NUL is the canonical form of itself alone. -/
theorem canonical_nul {name other : GoString} (nul : (0 : UInt8) ∈ name)
    (h : canonicalMIMEHeaderKey other = name) : other = name := by
  unfold canonicalMIMEHeaderKey at h
  split_ifs at h with valid
  · rw [← h] at nul
    exact absurd rfl (canonicalCase_ne_zero true (List.all_eq_true.mp valid) 0 nul)
  · exact h

theorem canonical_of_nul {name : GoString} (nul : (0 : UInt8) ∈ name) :
    canonicalMIMEHeaderKey name = name := by
  unfold canonicalMIMEHeaderKey
  rw [if_neg]
  intro valid
  exact absurd (List.all_eq_true.mp valid 0 nul) (by decide)

/-- How the map that is sent comes from the caller's headers. A name that C takes for
`Content-Type` reads the property that the prelude has set. -/
structure Adds (callers sent : GoMap) (added type : Option GoString) : Prop where
  callerKeys : ∀ e ∈ callers, ∀ e' ∈ callers, e.1 = e'.1 → e = e'
  sentKeys : ∀ e ∈ sent, ∀ e' ∈ sent, e.1 = e'.1 → e = e'
  none : added = none → sent = callers ∧
    (type ≠ none → ∃ e ∈ callers, canonicalMIMEHeaderKey e.1 = contentType)
  some : ∀ t, added = some t → type = some t ∧ (contentType, t) ∈ sent ∧
    (∀ e ∈ sent, e ∈ callers ∨ e.2 = t ∧ Engine.cString e.1 = contentType) ∧
    ∀ e ∈ callers, e ∈ sent ∨ Engine.cString e.1 = contentType

section Adds

variable {callers sent : GoMap} {added type : Option GoString}

theorem cString_contentType : Engine.cString contentType = contentType := by decide

theorem Adds.mem_sent (rel : Adds callers sent added type) {e : GoString × GoString}
    (he : e ∈ callers) (other : canonicalMIMEHeaderKey e.1 ≠ contentType) :
    e ∈ sent ∨ (0 : UInt8) ∈ e.1 := by
  cases h : added with
  | none =>
    rw [(rel.none h).1]
    exact .inl he
  | some t =>
    obtain ⟨_, _, _, kept⟩ := rel.some t h
    refine (kept e he).imp_right fun name => Engine.nul_of_cString fun self => other ?_
    rw [← self, name, canonical_contentType]

/-- With a NUL in one of the names the two entries are one. -/
theorem eq_of_nul {m : GoMap} (keys : ∀ e ∈ m, ∀ e' ∈ m, e.1 = e'.1 → e = e')
    {e e' : GoString × GoString} (he : e ∈ m) (he' : e' ∈ m) (nul : (0 : UInt8) ∈ e.1)
    (same : canonicalMIMEHeaderKey e.1 = canonicalMIMEHeaderKey e'.1) : e = e' := by
  rw [canonical_of_nul nul] at same
  exact keys e he e' he' (canonical_nul nul same.symm).symm

theorem Adds.agree_of_right (rel : Adds callers sent added type)
    (right : ContentTypeRight callers sent type) : HeadersAgree callers added := by
  obtain ⟨_, callerType, _, _⟩ := right sent (List.Perm.refl sent)
  have agree := (sentHeader_perm_iff sent).mp fun order order' h => (right order h).2.2.2 order'
  constructor
  · intro e he e' he' same
    by_cases named : canonicalMIMEHeaderKey e.1 = contentType
    · have one := callerType e he named
      have two := callerType e' he' (same ▸ named)
      exact (List.cons.inj (one.symm.trans two)).1
    · rcases rel.mem_sent he named with hs | nul
      · rcases rel.mem_sent he' (same ▸ named) with hs' | nul
        · exact agree e hs e' hs' same
        · rw [eq_of_nul rel.callerKeys he' he nul same.symm]
      · rw [eq_of_nul rel.callerKeys he he' nul same]
  · intro t ht e he named
    obtain ⟨_, mem, _, _⟩ := rel.some t ht
    obtain ⟨m, hm⟩ := exists_perm_last mem
    have caller := (right _ hm).2.1 e he named
    have last := sentHeader_last m (contentType, t)
    rw [canonical_contentType, caller] at last
    exact (List.cons.inj last).1

theorem Adds.sent_agree (rel : Adds callers sent added type) (agree : HeadersAgree callers added) :
    ∀ e ∈ sent, ∀ e' ∈ sent, canonicalMIMEHeaderKey e.1 = canonicalMIMEHeaderKey e'.1 →
      e.2 = e'.2 := by
  intro e he e' he' same
  cases h : added with
  | none =>
    rw [(rel.none h).1] at he he'
    exact agree.1 e he e' he' same
  | some t =>
    obtain ⟨_, _, origin, _⟩ := rel.some t h
    -- an entry with the added value against one of the caller's
    have mixed {e e' : GoString × GoString} (he : e ∈ sent) (he' : e' ∈ sent) (old : e ∈ callers)
        (set : e'.2 = t ∧ Engine.cString e'.1 = contentType)
        (same : canonicalMIMEHeaderKey e.1 = canonicalMIMEHeaderKey e'.1) : e.2 = e'.2 := by
      by_cases self : Engine.cString e'.1 = e'.1
      · rw [← self, set.2, canonical_contentType] at same
        rw [agree.2 t h e old same, set.1]
      · rw [eq_of_nul rel.sentKeys he' he (Engine.nul_of_cString self) same.symm]
    rcases origin e he with old | set <;> rcases origin e' he' with old' | set'
    · exact agree.1 e old e' old' same
    · exact mixed he he' old set' same
    · exact (mixed he' he old' set same.symm).symm
    · rw [set.1, set'.1]

theorem Adds.right_of_agree (rel : Adds callers sent added type)
    (agree : HeadersAgree callers added) : ContentTypeRight callers sent type := by
  intro order perm
  have sentAgree := rel.sent_agree agree
  have value {e : GoString × GoString} (he : e ∈ sent)
      (named : canonicalMIMEHeaderKey e.1 = contentType) :
      sentHeader order contentType = [e.2] := by
    obtain ⟨e', he', same, eq⟩ := sentHeader_of_mem (perm.mem_iff.mpr he)
    rw [named] at eq
    rw [eq, sentAgree e' (perm.mem_iff.mp he') e he same]
  refine ⟨length_sentHeader order contentType, fun e he named => ?_, fun none => ?_,
    fun order' perm' => (sentHeader_perm_iff sent).mpr sentAgree order order' perm perm'⟩
  · cases h : added with
    | none => exact value ((rel.none h).1 ▸ he) named
    | some t =>
      obtain ⟨_, mem, _, _⟩ := rel.some t h
      rw [agree.2 t h e he named]
      exact value mem canonical_contentType
  · cases h : added with
    | none =>
      obtain ⟨same, supplied⟩ := rel.none h
      have noType : type = Option.none := by
        by_contra some
        obtain ⟨e, he, named⟩ := supplied some
        exact none e he named
      rw [noType, sentHeader_of_notMem fun e he => none e (same ▸ perm.mem_iff.mp he)]
      rfl
    | some t =>
      obtain ⟨ht, mem, _, _⟩ := rel.some t h
      rw [value mem canonical_contentType, ht]
      rfl

end Adds

/-- What `fetch` reads is a list of entries, one for each key. -/
theorem result_readHeaders (fields : List (Str × Value E.Obj)) (keys : List GoString) (m : GoMap)
    (rt : Rt E) : (run E (readHeaders (.record fields) keys m : Call E.Obj ε GoMap) rt).result =
      some ((headerTexts fields keys rt).foldl (fun m e => m.set e.1 e.2) m) := by
  induction keys generalizing m rt with
  | nil => rfl
  | cons key keys ih =>
    simp only [readHeaders, Call.get_bind, Call.string_bind, run, perform_get_record, result_after,
      ih, headerTexts, List.foldl_cons, readText]

theorem keys_headerTexts (fields : List (Str × Value E.Obj)) (keys : List GoString) (rt : Rt E) :
    (headerTexts fields keys rt).map Prod.fst = keys := by
  induction keys generalizing rt with
  | nil => rfl
  | cons key keys ih => simp [headerTexts, ih]

theorem foldl_set (m l : GoMap) (distinct : ((m ++ l).map Prod.fst).Nodup) :
    l.foldl (fun m e => m.set e.1 e.2) m = m ++ l := by
  induction l generalizing m with
  | nil => simp
  | cons e l ih =>
    have fresh : e.1 ∉ m.map Prod.fst := by
      intro mem
      rw [List.map_append] at distinct
      exact List.disjoint_of_nodup_append distinct mem List.mem_cons_self
    rw [List.foldl_cons, GoMap.set_of_fresh fresh, ih (m ++ [e]) (by simpa using distinct)]
    simp

theorem nodup_keysOf (h : Fields E.Obj) : (keysOf h.fields).Nodup := by
  have distinct := h.distinct
  rw [List.Nodup, List.pairwise_map] at distinct
  rw [keysOf, List.Nodup, List.pairwise_map]
  exact distinct.imp fun ne eq => ne (units_of_toCStringLen eq)

/-- The map that the worker gets for a plain object with distinct keys. -/
theorem result_fetchHeaders (fields : List (Str × Value E.Obj)) (distinct : (keysOf fields).Nodup)
    (rt : Rt E) : (run E (fetchHeaders (.record fields) : Call E.Obj ε GoMap) rt).result =
      some (headerTexts fields (keysOf fields) rt) := by
  have keys : perform E (.keys (.record fields)) rt = (keysOf fields, rt, []) := by
    simp only [perform, Op.onException, Engine.answer, Engine.keysOf, keysOf, Except.map,
      List.map_map]
    rfl
  simp only [fetchHeaders, Value.isObject, if_true, Call.keys_bind, run, keys, result_after,
    result_readHeaders]
  rw [foldl_set [] _ (by simpa [keys_headerTexts] using distinct), List.nil_append]

/-- The conversion of a value that counts as false runs no code. -/
theorem readText_falsy {v : Value E.Obj} (h : v.truthy = false) (rt : Rt E) :
    (readText v rt).2 = rt := by
  cases v <;> first | rfl | cases h

theorem fieldOf_eq (fields : List (Str × Value E.Obj)) (name : GoString) :
    E.fieldOf fields name =
      ((fields.find? fun f => toCStringLen f.1 == name).map Prod.snd).getD .undefined := by
  unfold Engine.fieldOf
  cases fields.find? fun f => toCStringLen f.1 == name <;> rfl

theorem mem_keysOf_of_truthy {fields : List (Str × Value E.Obj)} {name : GoString}
    (h : (getName fields name).truthy = true) : name ∈ keysOf fields := by
  rw [getName, fieldOf_eq] at h
  cases found : fields.find? fun f => toCStringLen f.1 == name with
  | none =>
    rw [found] at h
    cases h
  | some f =>
    obtain ⟨named, mem⟩ := List.find?_eq_some_iff_append.mp found
    obtain ⟨pre, post, eq, _⟩ := mem
    exact List.mem_map.mpr ⟨f, by simp [eq], beq_iff_eq.mp named⟩

section SetName

variable {fields : List (Str × Value E.Obj)} {name : GoString} {v : Value E.Obj}

theorem any_iff_mem : fields.any (fun f => toCStringLen f.1 == name) = true ↔
    name ∈ keysOf fields := by
  simp only [List.any_eq_true, beq_iff_eq, keysOf, List.mem_map]

/-- Looking for a name among fields of which one has been replaced. -/
theorem find?_replace (other : GoString) :
    (fields.map fun f => if toCStringLen f.1 == name then (f.1, v) else f).find?
        (fun f => toCStringLen f.1 == other) =
      (fields.find? fun f => toCStringLen f.1 == other).map fun f =>
        if toCStringLen f.1 == name then (f.1, v) else f := by
  rw [List.find?_map]
  congr 2
  funext f
  simp only [Function.comp_apply]
  split <;> rfl

theorem fieldOf_setName_ne {other : GoString} (text : toCStringLen (.narrow name) = name)
    (ne : other ≠ name) : E.fieldOf (setName fields name v) other = E.fieldOf fields other := by
  rw [fieldOf_eq, fieldOf_eq]
  by_cases h : fields.any (fun f => toCStringLen f.1 == name) = true
  · rw [setName, if_pos h, find?_replace]
    cases found : fields.find? fun f => toCStringLen f.1 == other with
    | none => rfl
    | some f =>
      have named : toCStringLen f.1 = other :=
        beq_iff_eq.mp (List.find?_eq_some_iff_append.mp found).1
      simp [named, ne]
  · have skip : (toCStringLen (.narrow name) == other) = false := by
      rw [text]
      exact beq_false_of_ne ne.symm
    rw [setName, if_neg h, List.find?_append]
    simp [skip]

theorem fieldOf_setName_self (text : toCStringLen (.narrow name) = name) :
    E.fieldOf (setName fields name v) name = v := by
  rw [fieldOf_eq]
  by_cases h : fields.any (fun f => toCStringLen f.1 == name) = true
  · obtain ⟨f, hf, named⟩ := List.any_eq_true.mp h
    rw [setName, if_pos h, find?_replace]
    cases found : fields.find? fun f => toCStringLen f.1 == name with
    | none => exact absurd named (List.find?_eq_none.mp found f hf)
    | some f' =>
      have named' : toCStringLen f'.1 = name :=
        beq_iff_eq.mp (List.find?_eq_some_iff_append.mp found).1
      simp [named']
  · have none : fields.find? (fun f => toCStringLen f.1 == name) = none :=
      List.find?_eq_none.mpr fun f hf named => h (List.any_eq_true.mpr ⟨f, hf, named⟩)
    rw [setName, if_neg h, List.find?_append, none]
    simp [text]

theorem keysOf_setName (text : toCStringLen (.narrow name) = name) :
    keysOf (setName fields name v) =
      if name ∈ keysOf fields then keysOf fields else keysOf fields ++ [name] := by
  unfold setName
  simp only [any_iff_mem]
  split_ifs
  · simp only [keysOf, List.map_map]
    refine List.map_congr_left fun f _ => ?_
    simp only [Function.comp_apply]
    split <;> rfl
  · simp [keysOf, text]

end SetName

/-- The added type is read wherever C takes the name for `Content-Type`; all else is as before. -/
theorem headerTexts_setName {fields : List (Str × Value E.Obj)} {type : GoString}
    (text : toCStringLen (.narrow type) = type)
    (falsy : (getName fields contentType).truthy = false) (keys : List GoString) (rt : Rt E) :
    headerTexts (setName fields contentType (.string (.narrow type))) keys rt =
      (headerTexts fields keys rt).map fun e =>
        if Engine.cString e.1 = contentType then (e.1, type) else e := by
  have name : toCStringLen (.narrow contentType) = contentType := by decide
  induction keys generalizing rt with
  | nil => rfl
  | cons key keys ih =>
    by_cases h : Engine.cString key = contentType
    · have before : (readText (E.fieldOf fields contentType) rt).2 = rt := readText_falsy falsy rt
      have after : readText (.string (.narrow type)) rt = (type, rt) :=
        congrArg (fun t => (t, rt)) text
      simp only [headerTexts, h, fieldOf_setName_self name, after, before, List.map_cons, if_true,
        ih]
    · simp only [headerTexts, fieldOf_setName_ne name h, List.map_cons, h, if_false, ih]

theorem headerTexts_append (fields : List (Str × Value E.Obj)) (keys : List GoString)
    (key : GoString) (rt : Rt E) {type : GoString} (text : toCStringLen (.narrow type) = type)
    (h : E.fieldOf fields (Engine.cString key) = .string (.narrow type)) :
    headerTexts fields (keys ++ [key]) rt = headerTexts fields keys rt ++ [(key, type)] := by
  induction keys generalizing rt with
  | nil =>
    have read : (readText (.string (.narrow type)) rt).1 = type := text
    simp only [List.nil_append, headerTexts, h, read]
  | cons key' keys ih => simp only [List.cons_append, headerTexts, ih]

/-- The types that the prelude knows are ASCII. -/
theorem encodedType_text {g : Globals E} {o : Options E.Obj} {type : GoString}
    (h : encodedType g o = some type) : toCStringLen (.narrow type) = type := by
  unfold encodedType at h
  dsimp only at h
  split_ifs at h <;> cases h <;> decide

/-- The headers that the options carry. -/
def finalHeaders (g : Globals E) (o : Options E.Obj) : List (Str × Value E.Obj) :=
  match encodedType g o with
  | some type => addType type o.headers.fields
  | none => o.headers.fields

theorem finalHeaders_eq (g : Globals E) (o : Options E.Obj) : finalHeaders g o =
    match addedType g o with
    | some type => setName o.headers.fields contentType (.string (.narrow type))
    | none => o.headers.fields := by
  unfold finalHeaders addedType addType
  cases encodedType g o <;> dsimp only <;> split_ifs <;> rfl

theorem nodup_addType (type : GoString) (f : Fields E.Obj) :
    (keysOf (addType (E := E) type f.fields)).Nodup := by
  have old := nodup_keysOf f
  unfold addType
  split_ifs
  · rw [keysOf_setName (by decide)]
    split_ifs with mem
    · exact old
    · exact List.nodup_append.mpr ⟨old, by simp, fun a ha b hb => by
        rw [List.mem_singleton.mp hb]
        exact fun eq => mem (eq ▸ ha)⟩
  · exact old

theorem nodup_finalHeaders (g : Globals E) (o : Options E.Obj) :
    (keysOf (finalHeaders g o)).Nodup := by
  unfold finalHeaders
  cases encodedType g o with
  | none => exact nodup_keysOf o.headers
  | some type => exact nodup_addType type o.headers

theorem entries_distinct (fields : List (Str × Value E.Obj)) {keys : List GoString}
    (distinct : keys.Nodup) (rt : Rt E) : ∀ e ∈ headerTexts fields keys rt,
      ∀ e' ∈ headerTexts fields keys rt, e.1 = e'.1 → e = e' := by
  intro e he e' he' same
  have nodup : ((headerTexts fields keys rt).map Prod.fst).Nodup := by rwa [keys_headerTexts]
  exact List.inj_on_of_nodup_map nodup he he' same

theorem exists_headerText (fields : List (Str × Value E.Obj)) {keys : List GoString}
    {key : GoString} (h : key ∈ keys) (rt : Rt E) : ∃ e ∈ headerTexts fields keys rt, e.1 = key := by
  rw [← keys_headerTexts fields keys rt] at h
  exact List.mem_map.mp h

theorem adds_setName {o : Options E.Obj} {type : GoString}
    (text : toCStringLen (.narrow type) = type)
    (falsy : (getName o.headers.fields contentType).truthy = false) (rt : Rt E) :
    let sent := headerTexts (setName o.headers.fields contentType (.string (.narrow type)))
      (keysOf (setName o.headers.fields contentType (.string (.narrow type)))) rt
    (contentType, type) ∈ sent ∧
      (∀ e ∈ sent, e ∈ callerHeaders o rt ∨ e.2 = type ∧ Engine.cString e.1 = contentType) ∧
      ∀ e ∈ callerHeaders o rt, e ∈ sent ∨ Engine.cString e.1 = contentType := by
  have name : toCStringLen (.narrow contentType) = contentType := by decide
  have set : E.fieldOf (setName o.headers.fields contentType (.string (.narrow type)))
      (Engine.cString contentType) = .string (.narrow type) := by
    rw [cString_contentType, fieldOf_setName_self name]
  have old := headerTexts_setName text falsy (keysOf o.headers.fields) rt
  have origin : ∀ e ∈ (callerHeaders o rt).map fun e =>
      if Engine.cString e.1 = contentType then (e.1, type) else e,
      e ∈ callerHeaders o rt ∨ e.2 = type ∧ Engine.cString e.1 = contentType := by
    intro e he
    obtain ⟨e', he', rfl⟩ := List.mem_map.mp he
    split_ifs with h
    · exact .inr ⟨rfl, h⟩
    · exact .inl he'
  have kept : ∀ e ∈ callerHeaders o rt, e ∈ ((callerHeaders o rt).map fun e =>
      if Engine.cString e.1 = contentType then (e.1, type) else e) ∨
        Engine.cString e.1 = contentType := by
    intro e he
    by_cases h : Engine.cString e.1 = contentType
    · exact .inr h
    · exact .inl (List.mem_map.mpr ⟨e, he, if_neg h⟩)
  dsimp only
  rw [keysOf_setName name]
  split_ifs with mem
  · rw [old]
    refine ⟨?_, origin, kept⟩
    obtain ⟨e, he, named⟩ := exists_headerText o.headers.fields mem rt
    exact List.mem_map.mpr ⟨e, he, by rw [if_pos (by rw [named, cString_contentType]), named]⟩
  · rw [headerTexts_append _ _ _ rt text set, old]
    refine ⟨by simp, fun e he => ?_, fun e he => ?_⟩
    · rcases List.mem_append.mp he with he | he
      · exact origin e he
      · rw [List.mem_singleton.mp he]
        exact .inr ⟨rfl, cString_contentType⟩
    · exact (kept e he).imp_left (List.mem_append_left _)

/-- The headers that are sent come from the caller's as `Adds` says. -/
theorem adds_finalHeaders (g : Globals E) (o : Options E.Obj) (rt : Rt E) :
    Adds (callerHeaders o rt) (headerTexts (finalHeaders g o) (keysOf (finalHeaders g o)) rt)
      (addedType g o) (encodedType g o) := by
  refine ⟨entries_distinct _ (nodup_keysOf o.headers) rt,
    entries_distinct _ (nodup_finalHeaders g o) rt, fun none => ?_, fun type some => ?_⟩
  · refine ⟨by rw [finalHeaders_eq, none]; rfl, fun typed => ?_⟩
    have supplied : ∃ name, (getName o.headers.fields name).truthy = true ∧
        canonicalMIMEHeaderKey name = contentType := by
      unfold addedType at none
      split_ifs at none with h
      · exact absurd none typed
      · simp only [Bool.and_eq_true, Bool.not_eq_true', not_and_or, Bool.not_eq_false] at h
        rcases h with h | h
        · exact ⟨contentType, h, canonical_contentType⟩
        · exact ⟨ascii "content-type", h, canonical_lower⟩
    obtain ⟨name, truthy, canonical⟩ := supplied
    obtain ⟨e, he, named⟩ :=
      exists_headerText o.headers.fields (mem_keysOf_of_truthy truthy) rt
    exact ⟨e, he, named ▸ canonical⟩
  · have final : finalHeaders g o =
        setName o.headers.fields contentType (.string (.narrow type)) := by
      rw [finalHeaders_eq, some]
    unfold addedType at some
    split_ifs at some with h
    have falsy : (getName o.headers.fields contentType).truthy = false := by
      simp only [Bool.and_eq_true, Bool.not_eq_true'] at h
      exact h.1
    rw [final]
    exact ⟨some, adds_setName (encodedType_text some) falsy rt⟩

/-- The body that the encoding starts from has the headers that belong to it. -/
theorem encoded_headers {g : Globals E} {o : Options E.Obj} {chosen encoded : Body E}
    {w w₁ w' : E.World} (choose : chooseBody g o w = (.ok chosen, w₁))
    (encode : encodeBody g chosen w₁ = (.ok encoded, w')) : encoded.2 = finalHeaders g o := by
  unfold encodeBody at encode
  unfold chooseBody at choose
  unfold finalHeaders encodedType
  by_cases form : o.form.truthy = true
  · rw [if_pos form] at choose ⊢
    by_cases object : typeofObject g.objects o.form = true
    · rw [if_pos object] at choose ⊢
      obtain ⟨text, _, _, done⟩ := script_bind_ok_iff.mp choose
      cases script_pure_ok done
      exact congrArg Prod.snd (script_pure_ok encode).symm
    · rw [if_neg object] at choose ⊢
      cases script_pure_ok choose
      have skip : (!o.form.isNull && typeofObject g.objects o.form) = false := by simp [object]
      rw [skip, if_neg (by simp)] at encode
      exact congrArg Prod.snd (script_pure_ok encode).symm
  · rw [if_neg form] at choose ⊢
    have start : chosen = ((if o.formData.truthy then o.formData else o.body.orElse .null),
        o.headers.fields) := by
      split_ifs at choose ⊢ <;> exact (script_pure_ok choose).symm
    subst start
    dsimp only at encode ⊢
    split_ifs at encode ⊢ with object
    all_goals first
      | exact congrArg Prod.snd (script_pure_ok encode).symm
      | obtain ⟨text, _, _, done⟩ := script_bind_ok_iff.mp encode
        exact congrArg Prod.snd (script_pure_ok done).symm

theorem request_options {g : Globals E} {o : Options E.Obj} {options : Value E.Obj}
    {w w' : E.World} (h : request g o w = (.ok options, w')) :
    ∃ method body, options = fetchOptions method (body, finalHeaders g o) := by
  obtain ⟨method, _, _, h⟩ := script_bind_ok_iff.mp h
  obtain ⟨chosen, _, choose, h⟩ := script_bind_ok_iff.mp h
  obtain ⟨encoded, _, encode, h⟩ := script_bind_ok_iff.mp h
  refine ⟨method, encoded.1, ?_⟩
  rw [← encoded_headers choose encode]
  exact (script_pure_ok h).symm

/-- The headers of the request are the texts of the options' headers. -/
theorem headers_fetchRequest (toUpper : GoString → GoString) (url : Value E.Obj)
    {fields headers : List (Str × Value E.Obj)}
    (h : E.fieldOf fields (ascii "headers") = .record headers)
    (distinct : (keysOf headers).Nodup) (rt : Rt E) :
    ∃ q, (run E (fetchRequest toUpper [url, .record fields] : Call E.Obj Empty FetchRequest)
        rt).result = some q ∧
      q.headers = headerTexts headers (keysOf headers) (atHeaders toUpper url (.record fields) rt) := by
  have name : Engine.cString (ascii "headers") = ascii "headers" := by decide
  let rt₁ := (perform E (.string url) rt).2.1
  let target : Call E.Obj Empty (GoString × GoString) := fetchMethodBody toUpper (.record fields)
  have state : atHeaders toUpper url (.record fields) rt = (run E target rt₁).rt := rfl
  obtain ⟨mb, read, _⟩ : ∃ mb, (run E target rt₁).result = some mb ∧ True :=
    Returns.bind (returns_stringOption _ _ _ _) (fun method _ =>
      Returns.bind (returns_stringOption _ _ _ _) fun body _ => Returns.pure trivial) rt₁
  have texts := result_fetchHeaders (ε := Empty) headers distinct (run E target rt₁).rt
  refine ⟨⟨mb.1, (perform E (.string url) rt).1, mb.2,
    headerTexts headers (keysOf headers) (run E target rt₁).rt⟩, ?_, by rw [state]⟩
  simp only [fetchRequest, Value.isObject, if_true, Call.string_bind, Call.get_bind]
  simp only [run, result_after]
  rw [result_bind]
  change (run E target rt₁).result.bind _ = _
  rw [read, Option.bind_some]
  simp only [run, result_after, perform_get_record, name, h, result_bind]
  change (run E (fetchHeaders (.record headers) : Call E.Obj Empty GoMap)
    (run E target rt₁).rt).result.bind _ = _
  rw [texts]
  rfl

theorem fetchOptions_headers (method : Value E.Obj) (b : Body E) : ∃ fields,
    fetchOptions method b = .record fields ∧
      E.fieldOf fields (ascii "headers") = .record b.2 := by
  refine ⟨_, rfl, ?_⟩
  have m : (toCStringLen (js "method") == ascii "headers") = false := by decide
  have h : (toCStringLen (js "headers") == ascii "headers") = true := by decide
  split_ifs <;> simp [Engine.fieldOf, List.find?, m, h]

/-- A call of `lx.request` that comes to `fetch` sends the right Content-Type, in every order of
the Go map, exactly if spellings of one header name have one value, and a type that the prelude
adds finds no other value under a third spelling. -/
theorem content_type_iff (E : Engine) (g : Globals E) (toUpper : GoString → GoString)
    (url : Value E.Obj) (o : Options E.Obj) (rt : Rt E) (options : Value E.Obj) (w : E.World)
    (reaches : request g o rt.world = (.ok options, w)) :
    ∃ q, sentRequest g toUpper url o rt = some q ∧
      (ContentTypeRight (callerHeaders o (atHeaders toUpper url options { rt with world := w }))
          q.headers (encodedType g o) ↔
        HeadersAgree (callerHeaders o (atHeaders toUpper url options { rt with world := w }))
          (addedType g o)) := by
  obtain ⟨method, body, rfl⟩ := request_options reaches
  obtain ⟨fields, eq, headers⟩ := fetchOptions_headers method (body, finalHeaders g o)
  obtain ⟨q, sent, texts⟩ := headers_fetchRequest toUpper url headers (nodup_finalHeaders g o)
    { rt with world := w }
  refine ⟨q, ?_, ?_⟩
  · rw [sentRequest, reaches]
    dsimp only
    rw [eq]
    exact sent
  · have rel := adds_finalHeaders g o (atHeaders toUpper url (.record fields) { rt with world := w })
    rw [← texts, ← eq] at rel
    exact ⟨rel.agree_of_right, rel.right_of_agree⟩

/-- An object as the body, and one header. -/
def jsonOptions (name value : GoString) : Options plainEngine.Obj where
  method := .undefined
  headers := ⟨[(.narrow name, .string (.narrow value))], List.nodup_singleton _⟩
  body := .record []
  form := .undefined
  formData := .undefined

def jsonRequest (name value : GoString) : FetchRequest where
  method := ascii "GET"
  url := ascii "u"
  body := ascii "\x7b\x7d"
  headers := [(name, value), (contentType, jsonType)]

/-- Another header beside the type that is added. -/
theorem content_type_added : ∃ q,
    sentRequest plainGlobals id (.string (js "u")) (jsonOptions (ascii "X-A") (ascii "b")) plainRt =
      some q ∧
    ContentTypeRight [(ascii "X-A", ascii "b")] q.headers (some jsonType) := by
  obtain ⟨q, sent, right⟩ := content_type_iff plainEngine plainGlobals id (.string (js "u"))
    (jsonOptions (ascii "X-A") (ascii "b")) plainRt _ () rfl
  exact ⟨q, sent, right.mpr (by unfold HeadersAgree; decide)⟩

/-- A third spelling travels beside the added one, and the order of the map decides. -/
theorem content_type_fails :
    sentRequest plainGlobals id (.string (js "u"))
      (jsonOptions (ascii "CONTENT-TYPE") (ascii "text/plain")) plainRt =
        some (jsonRequest (ascii "CONTENT-TYPE") (ascii "text/plain")) ∧
    ¬ ContentTypeRight [(ascii "CONTENT-TYPE", ascii "text/plain")]
      (jsonRequest (ascii "CONTENT-TYPE") (ascii "text/plain")).headers (some jsonType) := by
  refine ⟨rfl, fun right => ?_⟩
  have last := (right _ (List.Perm.refl _)).2.1 _ List.mem_cons_self (by decide)
  revert last
  decide

end Prelude
