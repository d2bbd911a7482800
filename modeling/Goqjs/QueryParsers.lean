import Goqjs.PolyfillFunctions
import Goqjs.UrlParams
import Goqjs.UrlReassembly

/-!
# The two readers of a query

`URL` keeps the good pairs of a query and ignores its errors; `URLSearchParams` drops
everything when there is an error.
-/

namespace NetUrl

open Qjs PairLists

theorem Values.Represents.eq_nil {m : Values} (r : m.Represents []) : m = [] := by
  refine List.eq_nil_iff_forall_not_mem.mpr fun e he => r.nonempty e he ?_
  rw [← Values.lookup_of_mem r.keys he, r.values]
  rfl

theorem eq_nil_of_textOf {l : List (GoString × GoString)} (h : textOf l = []) : l = [] := by
  have read := queryPairs_textOf l
  rw [h] at read
  exact (Option.some.inj read).symm

/-- The query of a URL with nothing but a host before it. -/
theorem rawQuery_of_host {isIPv6 : GoString → Bool} {q : GoString} (noHash : hash ∉ q) {u : URL}
    (h : Parse isIPv6 (ascii "http://h/?" ++ q) = some u) : u.rawQuery = q := by
  let w : Written := ⟨none, ascii "h", some [], some q, none⟩
  have text : ascii "http://h/?" ++ q = start (ascii "http") ++ w.text := by
    simp [w, start, Written.text, Written.front, Written.upToPath, Written.authority, ascii]
  have clean : w.Clean := by
    have hosts : ∀ c ∈ [atSign, slash, question, hash], c ∉ ascii "h" := by decide
    refine ⟨by simp [w], by simp [w], hosts, ?_, ?_⟩
    · rintro p ⟨⟩
      simp
    · rintro p ⟨⟩
      exact noHash
  rw [text] at h
  exact ((Parse_eq_some_iff (Written.separated_iff_clean.mpr clean) (by decide) (by decide)).mp
    h).2.rawQuery

end NetUrl

namespace Polyfill

open Quickjs Qjs NetUrl PairLists

variable {E : Engine} {ε : Type}

/-- What a script sees of two objects through `has`, `get` and `toString` is the same. -/
structure SameParams (E : Engine) (a b : Values) : Prop where
  has : ∀ (key : Str) (s : Rt E), (run E (paramsHas a [.string key]) s).result =
    (run E (paramsHas b [.string key]) s).result
  get : ∀ (key : Str) (s : Rt E), (run E (paramsGet a [.string key]) s).result =
    (run E (paramsGet b [.string key]) s).result
  toString : ∀ s : Rt E, (run E (paramsToString a) s).result = (run E (paramsToString b) s).result

/-- Parameters that cannot be told from none are none. -/
theorem eq_nil_of_sameParams {m : Values} {l : List (GoString × GoString)} (r : m.Represents l)
    (s : Rt E) (same : SameParams E m []) : m = [] := by
  have nothing : Values.encode [] = [] := by simp [Values.encode, joinWith]
  have texts : newStringLen m.encode = newStringLen (Values.encode []) :=
    Value.string.inj (Option.some.inj (same.toString s))
  have empty : m.encode = [] := by
    refine (units_eq_nil_iff _).mp ?_
    rw [texts, nothing]
    rfl
  rw [r.encode_eq] at empty
  have sorted := eq_nil_of_textOf empty
  have none : l = [] := by
    refine List.length_eq_zero_iff.mp ?_
    rw [← List.length_mergeSort l, show l.mergeSort (fun p q => Values.nameLe p.1 q.1) = [] from
      sorted, List.length_nil]
  exact (none ▸ r).eq_nil

theorem URLSearchParams_string (q : Str) (s : Rt E) :
    (run E (URLSearchParams [.string q] : Call E.Obj ε Values) s).result =
      some (if (ParseQuery (trimQuestion (toCStringLen q))).2 then []
        else (ParseQuery (trimQuestion (toCStringLen q))).1) := rfl

/-- What `URLSearchParams` returns for a string with a question mark in front. -/
theorem URLSearchParams_question (q : Str) (s : Rt E) :
    (run E (URLSearchParams [.string ((js "?").concat q)] : Call E.Obj ε Values) s).result =
      some (if (ParseQuery (toCStringLen q)).2 then [] else (ParseQuery (toCStringLen q)).1) := by
  have text : toCStringLen ((js "?").concat q) = question :: toCStringLen q :=
    toCStringLen_ascii_concat (by decide) q
  have trimmed : trimQuestion (question :: toCStringLen q) = toCStringLen q := if_pos rfl
  rw [URLSearchParams_string, text, trimmed]

/-- The parameters of `URL('http://h/?' + q)` and of `URLSearchParams('?' + q)` are the same exactly
if no piece of the query is malformed, or none is a pair, or there are too many. -/
theorem query_parsers_agree_iff (lib : NetLib) (s t : Rt E) (q : Str)
    (noHash : UInt16.ofNat hash.toNat ∉ q.units) (o : UrlObject) (params : Values)
    (accepted : Accepts lib E (ε := ε) s ((js "http://h/?").concat q) o)
    (constructed : (run E (URLSearchParams [.string ((js "?").concat q)] : Call E.Obj ε Values)
      t).result = some params) :
    SameParams E o.searchParams params ↔
      (∀ p ∈ pieces (toCStringLen q), parsePair p ≠ none) ∨
        (∀ p ∈ pieces (toCStringLen q), ∀ kv, parsePair p ≠ some (some kv)) ∨
        maxParams < (toCStringLen q).count ampersand + 1 := by
  obtain ⟨u, parsed, rfl⟩ := (accepts_iff lib E s _ o).mp accepted
  rw [show toCStringLen ((js "http://h/?").concat q) = ascii "http://h/?" ++ toCStringLen q from
    toCStringLen_ascii_concat (by decide) q] at parsed
  have raw := rawQuery_of_host (fun mem => noHash ((mem_toCStringLen (by decide)).mp mem)) parsed
  rw [URLSearchParams_question] at constructed
  have params' := Option.some.inj constructed
  have kept : (urlObject u).searchParams = (ParseQuery (toCStringLen q)).1 := by
    rw [← raw]
    rfl
  rw [kept, ← params']
  by_cases many : maxParams < (toCStringLen q).count ampersand + 1
  · have none : ParseQuery (toCStringLen q) = ([], true) := if_pos many
    rw [none]
    exact iff_of_true ⟨fun _ _ => rfl, fun _ _ => rfl, fun _ => rfl⟩ (.inr (.inr many))
  · have r : (addAll [] (goodPairs (pieces (toCStringLen q)))).Represents
        (goodPairs (pieces (toCStringLen q))) := Values.represents_nil.addAll _
    rw [ParseQuery_eq (by omega)]
    by_cases bad : (pieces (toCStringLen q)).any (fun p => (parsePair p).isNone) = true
    · simp only [bad, if_true]
      constructor
      · intro same
        have empty := eq_nil_of_sameParams r s same
        refine .inr (.inl fun p hp kv pair => ?_)
        have mem : kv ∈ goodPairs (pieces (toCStringLen q)) :=
          List.mem_filterMap.mpr ⟨p, hp, by rw [pair]; rfl⟩
        have values : kv.2 ∈ valuesOf kv.1 (goodPairs (pieces (toCStringLen q))) :=
          List.mem_map.mpr ⟨kv, List.mem_filter.mpr ⟨mem, by simp⟩, rfl⟩
        rw [← r.values, empty] at values
        cases values
      · rintro (good | none | many')
        · obtain ⟨p, hp, isNone⟩ := List.any_eq_true.mp bad
          exact absurd (Option.isNone_iff_eq_none.mp isNone) (good p hp)
        · have empty : goodPairs (pieces (toCStringLen q)) = [] := by
            refine List.filterMap_eq_nil_iff.mpr fun p hp => ?_
            cases pair : parsePair p with
            | none => rfl
            | some kv =>
              cases kv with
              | none => rfl
              | some kv => exact absurd pair (none p hp kv)
          rw [empty]
          exact ⟨fun _ _ => rfl, fun _ _ => rfl, fun _ => rfl⟩
        · exact absurd many' many
    · simp only [bad]
      refine iff_of_true ⟨fun _ _ => rfl, fun _ _ => rfl, fun _ => rfl⟩ (.inl fun p hp none => ?_)
      exact bad (List.any_eq_true.mpr ⟨p, hp, by rw [none]; rfl⟩)

/-- `http://h/?` with a query. -/
def hostURL (query : GoString) : NetUrl.URL :=
  { newURL with
    scheme := ascii "http", host := ascii "h", path := ascii "/", rawQuery := query }

/-- Two names, the first of them with two values. -/
theorem query_parsers_agree_repeated :
    SameParams plainEngine (urlObject (hostURL (ascii "a=1&b=%C3%A9&a=3"))).searchParams
      [(ascii "a", [ascii "1", ascii "3"]), (ascii "b", [[0xC3, 0xA9]])] := by
  have constructed : (run plainEngine (URLSearchParams
      [.string ((js "?").concat (js "a=1&b=%C3%A9&a=3"))] : Call Empty Empty Values)
        plainRt).result =
      some [(ascii "a", [ascii "1", ascii "3"]), (ascii "b", [[0xC3, 0xA9]])] :=
    (URLSearchParams_question _ _).trans (congrArg some (by decide +kernel))
  have accepted : Accepts plainLib plainEngine (ε := Empty) plainRt
      ((js "http://h/?").concat (js "a=1&b=%C3%A9&a=3"))
      (urlObject (hostURL (ascii "a=1&b=%C3%A9&a=3"))) :=
    (accepts_iff plainLib plainEngine plainRt _ _).mpr ⟨_, by decide +kernel, rfl⟩
  exact (query_parsers_agree_iff plainLib plainRt plainRt (js "a=1&b=%C3%A9&a=3")
    (by decide +kernel) (urlObject (hostURL (ascii "a=1&b=%C3%A9&a=3"))) _
    accepted constructed).mpr (.inl (by decide +kernel))

/-- In `a=1&%` the escape is malformed: only `URL` has the key `a`. -/
theorem query_parsers_agree_fails : ∃ o params,
    Accepts plainLib plainEngine (ε := Empty) plainRt ((js "http://h/?").concat (js "a=1&%")) o ∧
      (run plainEngine (URLSearchParams [.string ((js "?").concat (js "a=1&%"))] :
        Call Empty Empty Values) plainRt).result = some params ∧
      ¬ SameParams plainEngine o.searchParams params := by
  refine ⟨urlObject (hostURL (ascii "a=1&%")), [], ?_, rfl, ?_⟩
  · exact (accepts_iff plainLib plainEngine plainRt _ _).mpr ⟨_, by decide +kernel, rfl⟩
  · intro same
    have eq : true = false := Value.bool.inj (Option.some.inj (same.has (js "a") plainRt))
    cases eq

end Polyfill
