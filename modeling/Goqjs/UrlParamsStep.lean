import Goqjs.SearchParams
import Goqjs.UrlQuery

/-!
# A URL object and its searchParams

The query is held twice: in the text that `toString` returns, which is made once, and in the map
that the methods of `searchParams` share. Calls change the map only, so the two are in step as long
as the calls give every name the values that it had.
-/

namespace Polyfill

open Quickjs Qjs NetUrl PairLists

variable {E : Engine}

/-- The pairs after an operation, as the map has them. -/
def ParamsOp.onPairs : ParamsOp → List (GoString × GoString) → List (GoString × GoString)
  | append name value, l => PairLists.append (toCStringLen name) (toCStringLen value) l
  | set name value, l => PairLists.set (toCStringLen name) (toCStringLen value) l
  | delete name, l => PairLists.delete (toCStringLen name) l
  | get _, l | has _, l | toString, l => l

def pairsAfter (l : List (GoString × GoString)) (ops : List (ParamsOp × Rt E)) :
    List (GoString × GoString) :=
  ops.foldl (fun l op => op.1.onPairs l) l

/-- A call on `o.searchParams`. The map is all that its methods share with the object. -/
def UrlObject.call (o : UrlObject) (op : ParamsOp × Rt E) : UrlObject :=
  { o with
    searchParams := paramsAfter o.searchParams (run E (op.1.call o.searchParams) op.2).effects }

def UrlObject.calls (o : UrlObject) (ops : List (ParamsOp × Rt E)) : UrlObject :=
  ops.foldl UrlObject.call o

/-- The query part of `o.toString()` parses to `l`. -/
def UrlObject.Shows (o : UrlObject) (l : List (GoString × GoString)) : Prop :=
  queryPairs (queryPart (toCStringLen o.href)) = some l

/-- The query part of `o.toString()` parses to the pairs that `o.searchParams` reports. -/
def UrlObject.InStep (o : UrlObject) : Prop := ∃ l, o.Shows l ∧ o.searchParams.Represents l

theorem represents_onPairs {params : Values} {l : List (GoString × GoString)}
    (r : params.Represents l) (op : ParamsOp) (s : Rt E) :
    (paramsAfter params (run E (op.call params) s).effects).Represents (op.onPairs l) := by
  cases op with
  | append name value => exact r.add _ _
  | set name value => exact r.set _ _
  | delete name => exact r.del _
  | get name =>
    have none : (run E (ParamsOp.call params (.get name)) s).effects = [] := by
      simp only [ParamsOp.call, paramsGet, Call.string_bind, run_string]
      split_ifs <;> rfl
    rw [none]
    exact r
  | has name => exact r
  | toString => exact r

theorem href_calls (o : UrlObject) (ops : List (ParamsOp × Rt E)) : (o.calls ops).href = o.href := by
  induction ops generalizing o with
  | nil => rfl
  | cons op ops ih => exact ih (o.call op)

theorem represents_calls {o : UrlObject} {l : List (GoString × GoString)}
    (r : o.searchParams.Represents l) (ops : List (ParamsOp × Rt E)) :
    (o.calls ops).searchParams.Represents (pairsAfter l ops) := by
  induction ops generalizing o l with
  | nil => exact r
  | cons op ops ih => exact ih (represents_onPairs r op.1 op.2)

/-- Two lists are in the same map exactly if they have the same values of every name. -/
theorem represents_iff {params : Values} {l l' : List (GoString × GoString)}
    (r : params.Represents l) :
    params.Represents l' ↔ ∀ name, valuesOf name l' = valuesOf name l := by
  constructor
  · intro r' name
    rw [← r.values, ← r'.values]
  · intro same
    exact ⟨r.keys, r.nonempty, fun name => (r.values name).trans (same name).symm⟩

theorem represents_parse {q : GoString} (wellFormed : (ParseQuery q).2 = false) :
    ∃ l, queryPairs q = some l ∧ (ParseQuery q).1.Represents l := by
  have few : q.count ampersand + 1 ≤ maxParams := by
    by_contra many
    rw [ParseQuery, if_pos (by omega)] at wellFormed
    cases wellFormed
  rw [ParseQuery_eq few] at wellFormed ⊢
  have good : ¬ ∃ p ∈ pieces q, parsePair p = none := by
    rintro ⟨p, hp, none⟩
    exact List.any_eq_false.mp wellFormed p hp (Option.isNone_iff_eq_none.mpr none)
  exact ⟨_, if_neg good, Values.represents_nil.addAll _⟩

/-- The text keeps the pairs that `searchParams` had at first. The two are in step as long as the
calls leave, or give back, the values of every name. -/
theorem url_text_fixed (lib : NetLib) {ε : Type} (s : Rt E) (text : Str) (o : UrlObject)
    (accepted : Accepts lib E (ε := ε) s text o)
    (wellFormed : (ParseQuery (queryPart (toCStringLen text))).2 = false) :
    ∃ l, o.searchParams.Represents l ∧ ∀ ops : List (ParamsOp × Rt E),
      (o.calls ops).href = o.href ∧ (o.calls ops).Shows l ∧
        ((o.calls ops).InStep ↔ ∀ name, valuesOf name (pairsAfter l ops) = valuesOf name l) := by
  obtain ⟨u, parsed, rfl⟩ := (accepts_iff lib E s _ o).mp accepted
  obtain ⟨shown, raw⟩ := queryPart_href parsed
  obtain ⟨l, read, first⟩ := represents_parse wellFormed
  have start : (urlObject u).searchParams.Represents l := by
    change (ParseQuery u.rawQuery).1.Represents l
    rw [raw]
    exact first
  refine ⟨l, start, fun ops => ?_⟩
  have shows : ((urlObject u).calls ops).Shows l := by
    unfold UrlObject.Shows
    rw [href_calls]
    change queryPairs (queryPart (viaString u.string)) = some l
    rw [shown]
    exact read
  refine ⟨href_calls _ ops, shows, ?_⟩
  have now := represents_calls start ops
  constructor
  · rintro ⟨l', shows', reports⟩ name
    obtain rfl : l' = l := Option.some.inj (shows'.symm.trans shows)
    exact ((represents_iff now).mp reports name).symm
  · intro same
    exact ⟨l, shows, (represents_iff now).mpr fun name => (same name).symm⟩

theorem accepts_host : Accepts plainLib plainEngine (ε := Empty) plainRt (js "http://h/?a=1")
    (urlObject (hostURL (ascii "a=1"))) :=
  (accepts_iff plainLib plainEngine plainRt _ _).mpr ⟨_, by decide +kernel, rfl⟩

theorem url_text_fixed_pair : ∃ l,
    (urlObject (hostURL (ascii "a=1"))).searchParams.Represents l ∧
      ∀ ops : List (ParamsOp × Rt plainEngine),
        ((urlObject (hostURL (ascii "a=1"))).calls ops).href =
            (urlObject (hostURL (ascii "a=1"))).href ∧
          ((urlObject (hostURL (ascii "a=1"))).calls ops).Shows l ∧
            (((urlObject (hostURL (ascii "a=1"))).calls ops).InStep ↔
              ∀ name, valuesOf name (pairsAfter l ops) = valuesOf name l) :=
  url_text_fixed plainLib plainRt (js "http://h/?a=1") _ accepts_host (by decide +kernel)

/-- After `append("b", "2")` the text of `http://h/?a=1` does not show `b`. -/
theorem url_in_step_fails : ∃ o,
    Accepts plainLib plainEngine (ε := Empty) plainRt (js "http://h/?a=1") o ∧
      (ParseQuery (queryPart (toCStringLen (js "http://h/?a=1")))).2 = false ∧
      ¬ (o.calls [(.append (js "b") (js "2"), plainRt)]).InStep := by
  refine ⟨_, accepts_host, by decide +kernel, ?_⟩
  rintro ⟨l, shows, reports⟩
  have text : queryPairs (queryPart (toCStringLen (urlObject (hostURL (ascii "a=1"))).href)) =
      some [(ascii "a", ascii "1")] := by decide +kernel
  have shown : l = [(ascii "a", ascii "1")] := Option.some.inj (shows.symm.trans text)
  have added := reports.values (ascii "b")
  rw [shown] at added
  revert added
  decide +kernel

end Polyfill
