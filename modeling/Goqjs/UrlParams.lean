import Goqjs.PairLists
import Goqjs.UrlSpelling
import Goqjs.UrlValues

/-!
# Parameters as a list of pairs

A query text says a list of pairs. `url.Values` keeps the values of every name in their
order, but not the order of the names; `Encode` writes the names sorted, and what it writes
says the sorted list.
-/

namespace NetUrl

open Qjs Separators Percent PairLists

/-- The pairs of the pieces that are well formed. -/
def goodPairs (ps : List GoString) : List (GoString × GoString) :=
  ps.filterMap fun p => (parsePair p).join

/-- All pairs of a text, if every piece is well formed. -/
def queryPairs (query : GoString) : Option (List (GoString × GoString)) :=
  if ∃ p ∈ pieces query, parsePair p = none then none else some (goodPairs (pieces query))

def addAll (m : Values) (l : List (GoString × GoString)) : Values :=
  l.foldl (fun m p => m.add p.1 p.2) m

theorem parsePairs_eq (ps : List GoString) (m : Values) :
    parsePairs ps m = (addAll m (goodPairs ps), ps.any fun p => (parsePair p).isNone) := by
  induction ps generalizing m with
  | nil => rfl
  | cons p ps ih =>
    rw [parsePairs, goodPairs, List.filterMap_cons, List.any_cons]
    cases h : parsePair p with
    | none =>
      rw [ih]
      rfl
    | some pair =>
      cases pair with
      | none =>
        simp only [ih]
        rfl
      | some kv =>
        simp only [ih]
        rfl

theorem ParseQuery_eq {query : GoString} (few : query.count ampersand + 1 ≤ maxParams) :
    ParseQuery query = (addAll [] (goodPairs (pieces query)),
      (pieces query).any fun p => (parsePair p).isNone) := by
  rw [ParseQuery, if_neg (by omega), parsePairs_eq]

/-- `ParseQuery` groups the pairs of the text. -/
theorem ParseQuery_queryPairs {query : GoString} {l : List (GoString × GoString)}
    (read : queryPairs query = some l) (few : query.count ampersand + 1 ≤ maxParams) :
    ParseQuery query = (addAll [] l, false) := by
  unfold queryPairs at read
  split_ifs at read with bad
  have good := Option.some.inj read
  have none : ((pieces query).any fun p => (parsePair p).isNone) = false := by
    rw [Bool.eq_false_iff]
    intro some
    obtain ⟨p, hp, isNone⟩ := List.any_eq_true.mp some
    exact bad ⟨p, hp, Option.isNone_iff_eq_none.mp isNone⟩
  rw [ParseQuery_eq few, good, none]

namespace Values

variable {m : Values} {l : List (GoString × GoString)}

/-- The map has the values of every name in their order, and no name without values. -/
structure Represents (m : Values) (l : List (GoString × GoString)) : Prop where
  keys : (m.map Prod.fst).Nodup
  nonempty : ∀ e ∈ m, e.2 ≠ []
  values : ∀ k, m.lookup k = valuesOf k l

theorem lookup_cons (e : GoString × List GoString) (m : Values) (k : GoString) :
    lookup (e :: m) k = if e.1 = k then e.2 else m.lookup k := by
  unfold lookup
  by_cases eq : e.1 = k <;> simp [eq]

theorem lookup_of_notMem {k : GoString} (h : k ∉ m.map Prod.fst) : m.lookup k = [] := by
  induction m with
  | nil => rfl
  | cons e m ih =>
    rw [List.map_cons, List.mem_cons, not_or] at h
    rw [lookup_cons, if_neg (Ne.symm h.1), ih h.2]

theorem lookup_of_mem (keys : (m.map Prod.fst).Nodup) {e : GoString × List GoString}
    (h : e ∈ m) : m.lookup e.1 = e.2 := by
  induction m with
  | nil => cases h
  | cons d m ih =>
    rw [List.map_cons, List.nodup_cons] at keys
    rw [lookup_cons]
    rcases List.mem_cons.mp h with rfl | h
    · exact if_pos rfl
    · rw [if_neg, ih keys.2 h]
      intro eq
      exact keys.1 (eq ▸ List.mem_map_of_mem h)

theorem lookup_append (a b : Values) (k : GoString) :
    lookup (a ++ b) k = if k ∈ a.map Prod.fst then a.lookup k else b.lookup k := by
  induction a with
  | nil => simp
  | cons e a ih =>
    have mem : k ∈ (e :: a).map Prod.fst ↔ k = e.1 ∨ k ∈ a.map Prod.fst := by
      rw [List.map_cons, List.mem_cons]
    rw [List.cons_append, lookup_cons, lookup_cons, ih]
    simp only [mem]
    by_cases eq : e.1 = k
    · simp [eq]
    · have ne : ¬ k = e.1 := fun h => eq h.symm
      simp only [if_neg eq, ne, false_or]

theorem any_key (m : Values) (k : GoString) :
    (m.any fun e => e.1 == k) = true ↔ k ∈ m.map Prod.fst := by
  rw [List.any_eq_true, List.mem_map]
  simp

theorem keys_assign (m : Values) (k : GoString) (vs : List GoString) :
    (m.assign k vs).map Prod.fst =
      if k ∈ m.map Prod.fst then m.map Prod.fst else m.map Prod.fst ++ [k] := by
  unfold assign
  simp only [any_key]
  split_ifs
  · rw [List.map_map]
    refine List.map_congr_left fun e _ => ?_
    by_cases eq : e.1 = k <;> simp [eq]
  · simp

theorem lookup_assign (m : Values) (k k' : GoString) (vs : List GoString) :
    (m.assign k vs).lookup k' = if k' = k then vs else m.lookup k' := by
  unfold assign
  simp only [any_key]
  split_ifs with known eq eq
  · subst eq
    induction m with
    | nil => cases known
    | cons e m ih =>
      rw [List.map_cons, lookup_cons]
      by_cases here : e.1 = k'
      · simp [here]
      · rw [List.map_cons, List.mem_cons] at known
        have there := ih (known.resolve_left (Ne.symm here))
        simpa [here] using there
  · clear known
    induction m with
    | nil => rfl
    | cons e m ih =>
      rw [List.map_cons, lookup_cons, lookup_cons, ih]
      by_cases here : e.1 = k
      · simp [here, Ne.symm eq]
      · simp [here]
  · rw [lookup_append, eq, if_neg known, lookup_cons, if_pos rfl]
  · rw [lookup_append, lookup_cons, if_neg (Ne.symm eq)]
    split_ifs with mem
    · rfl
    · exact (lookup_of_notMem mem).symm

theorem mem_assign {e : GoString × List GoString} {k : GoString} {vs : List GoString}
    (h : e ∈ m.assign k vs) : e ∈ m ∨ e = (k, vs) := by
  unfold assign at h
  split_ifs at h
  · obtain ⟨d, hd, rfl⟩ := List.mem_map.mp h
    split_ifs
    · exact .inr rfl
    · exact .inl hd
  · rcases List.mem_append.mp h with h | h
    · exact .inl h
    · exact .inr (List.mem_singleton.mp h)

theorem represents_nil : Represents [] [] := ⟨by simp, by simp, fun _ => rfl⟩

/-- Giving a name new values leaves the values of the others. -/
theorem Represents.assign (r : m.Represents l) {k : GoString} {vs : List GoString} (ne : vs ≠ [])
    {l' : List (GoString × GoString)}
    (values : ∀ k', valuesOf k' l' = if k' = k then vs else valuesOf k' l) :
    (m.assign k vs).Represents l' := by
  refine ⟨?_, fun e he => ?_, fun k' => ?_⟩
  · rw [keys_assign]
    split_ifs with mem
    · exact r.keys
    · refine List.nodup_append.mpr ⟨r.keys, by simp, ?_⟩
      intro a ha b hb eq
      obtain rfl := List.mem_singleton.mp hb
      exact mem (eq ▸ ha)
  · rcases mem_assign he with he | rfl
    · exact r.nonempty e he
    · exact ne
  · rw [lookup_assign, values, r.values]

theorem Represents.add (r : m.Represents l) (k v : GoString) :
    (m.add k v).Represents (append k v l) := by
  refine r.assign (by simp) fun k' => ?_
  rw [valuesOf_append, r.values]
  by_cases eq : k' = k
  · simp [eq]
  · simp [eq, Ne.symm eq]

theorem Represents.set (r : m.Represents l) (k v : GoString) :
    (m.set k v).Represents (PairLists.set k v l) :=
  r.assign (by simp) fun k' => valuesOf_set k' k v l

theorem lookup_del (m : Values) (k k' : GoString) :
    (m.del k).lookup k' = if k' = k then [] else m.lookup k' := by
  unfold del
  induction m with
  | nil => simp [lookup]
  | cons e m ih =>
    rw [lookup_cons]
    by_cases gone : e.1 = k
    · rw [List.filter_cons_of_neg (by simpa using gone), ih]
      by_cases eq : k' = k
      · simp [eq]
      · rw [if_neg eq, if_neg eq, if_neg fun h => eq (h.symm.trans gone)]
    · rw [List.filter_cons_of_pos (by simpa using gone), lookup_cons, ih]
      by_cases eq : k' = k
      · simp [eq, gone]
      · simp [eq]

theorem Represents.del (r : m.Represents l) (k : GoString) :
    (m.del k).Represents (delete k l) := by
  refine ⟨?_, fun e he => r.nonempty e (List.mem_of_mem_filter he), fun k' => ?_⟩
  · exact r.keys.sublist (List.filter_sublist.map Prod.fst)
  · rw [lookup_del, valuesOf_delete, r.values]

theorem Represents.addAll (r : m.Represents l) (more : List (GoString × GoString)) :
    (NetUrl.addAll m more).Represents (l ++ more) := by
  induction more generalizing m l with
  | nil =>
    rw [List.append_nil]
    exact r
  | cons p more ih =>
    have first := ih (r.add p.1 p.2)
    rwa [append, List.append_assoc] at first

theorem Represents.get_eq (r : m.Represents l) (k : GoString) :
    m.get k = (PairLists.get k l).getD [] := by
  rw [Values.get, r.values, PairLists.get]

theorem Represents.has_eq (r : m.Represents l) (k : GoString) :
    m.has k = PairLists.has k l := by
  rw [Bool.eq_iff_iff, Values.has, any_key, has_iff, ← r.values]
  constructor
  · intro mem
    obtain ⟨e, he, rfl⟩ := List.mem_map.mp mem
    rw [lookup_of_mem r.keys he]
    exact r.nonempty e he
  · intro some
    by_contra absent
    exact some (lookup_of_notMem absent)

end Values

theorem unescape_escape_query (s : GoString) :
    unescape (escape s .queryComponent) .queryComponent = some s := by
  refine Coding.decode_encode ⟨escaped_percent .queryComponent, ?_, ?_, ?_⟩ s
  · intro c _
    rfl
  · intro c _
    rfl
  · intro _
    exact ⟨by decide, rfl⟩

theorem notMem_escape_query {c : UInt8} (hc : c ∈ [ampersand, equalsSign, semicolon])
    (s : GoString) : c ∉ escape s .queryComponent := by
  have facts : ∀ c ∈ [ampersand, equalsSign, semicolon], c ≠ percent ∧ Hex.value c = none ∧
      c ≠ plus ∧ shouldEscape c .queryComponent = true := by decide
  obtain ⟨notPercent, notDigit, notPlus, escaped⟩ := facts c hc
  intro mem
  rcases Coding.mem_encode mem with h | h | h | h
  · exact notPercent h
  · exact h notDigit
  · exact notPlus h.2
  · rw [show shouldEscape c .queryComponent = false from h.2] at escaped
    cases escaped

/-- A pair as `Encode` writes it. -/
def writePair (p : GoString × GoString) : GoString :=
  escape p.1 .queryComponent ++ equalsSign :: escape p.2 .queryComponent

theorem notMem_writePair {c : UInt8} (hc : c ∈ [ampersand, semicolon]) (p : GoString × GoString) :
    c ∉ writePair p := by
  have facts : ∀ c ∈ [ampersand, semicolon], c ∈ [ampersand, equalsSign, semicolon] ∧
      c ≠ equalsSign := by decide
  obtain ⟨listed, ne⟩ := facts c hc
  rw [writePair, List.mem_append, List.mem_cons, not_or, not_or]
  exact ⟨notMem_escape_query listed p.1, ne, notMem_escape_query listed p.2⟩

/-- A pair is read if its name and its value are, and no separator stands in them. -/
theorem parsePair_glue {a b k v : GoString} (noSemicolon : semicolon ∉ a ++ equalsSign :: b)
    (noEquals : equalsSign ∉ a) (name : unescape a .queryComponent = some k)
    (value : unescape b .queryComponent = some v) :
    parsePair (a ++ equalsSign :: b) = some (some (k, v)) := by
  rw [parsePair, if_neg noSemicolon, if_neg (by simp), cut_append_cons noEquals]
  simp [name, value]

theorem parsePair_writePair (p : GoString × GoString) : parsePair (writePair p) = some (some p) :=
  parsePair_glue (notMem_writePair (by decide) p) (notMem_escape_query (by decide) p.1)
    (unescape_escape_query p.1) (unescape_escape_query p.2)

theorem pieces_of_notMem {p : GoString} (h : ampersand ∉ p) : pieces p = [p] := by
  induction p with
  | nil => rfl
  | cons c p ih =>
    rw [List.mem_cons, not_or] at h
    rw [pieces, if_neg (Ne.symm h.1), ih h.2]

theorem pieces_append {p : GoString} (h : ampersand ∉ p) (rest : GoString) :
    pieces (p ++ ampersand :: rest) = p :: pieces rest := by
  induction p with
  | nil => rw [List.nil_append, pieces, if_pos rfl]
  | cons c p ih =>
    rw [List.mem_cons, not_or] at h
    rw [List.cons_append, pieces, if_neg (Ne.symm h.1), ih h.2]

theorem pieces_joinWith {ps : List GoString} (ne : ps ≠ []) (h : ∀ p ∈ ps, ampersand ∉ p) :
    pieces (joinWith [ampersand] ps) = ps := by
  induction ps with
  | nil => exact absurd rfl ne
  | cons p ps ih =>
    have here := h p List.mem_cons_self
    cases ps with
    | nil => exact pieces_of_notMem here
    | cons q ps =>
      have tail := ih (by simp) fun d hd => h d (List.mem_cons_of_mem _ hd)
      rw [joinWith, List.append_assoc, List.singleton_append, pieces_append here, tail]
      simp

theorem length_pieces (q : GoString) : (pieces q).length = q.count ampersand + 1 := by
  induction q with
  | nil => rfl
  | cons c q ih =>
    rw [pieces]
    split_ifs with sep
    · rw [List.length_cons, ih, sep, List.count_cons_self]
    · rw [List.count_cons_of_ne sep, ← ih]
      cases found : pieces q with
      | nil =>
        rw [found] at ih
        cases ih
      | cons p ps => rfl

/-- A text of pieces that are all pairs. -/
theorem queryPairs_joinWith {ps : List GoString} {l : List (GoString × GoString)} (ne : ps ≠ [])
    (h : ∀ p ∈ ps, ampersand ∉ p) (read : ps.map parsePair = l.map fun p => some (some p)) :
    queryPairs (joinWith [ampersand] ps) = some l := by
  have good : goodPairs ps = l := by
    have joined : goodPairs ps = (ps.map parsePair).filterMap Option.join := by
      rw [goodPairs, List.filterMap_map]
      rfl
    rw [joined, read, List.filterMap_map]
    exact List.filterMap_some
  have none : ¬ ∃ p ∈ ps, parsePair p = none := by
    rintro ⟨p, hp, bad⟩
    obtain ⟨q, _, eq⟩ := List.mem_map.mp (read ▸ List.mem_map_of_mem hp)
    rw [bad] at eq
    cases eq
  rw [queryPairs, pieces_joinWith ne h, if_neg none, good]

/-- The text of a list of pairs. -/
def textOf (l : List (GoString × GoString)) : GoString :=
  joinWith [ampersand] (l.map writePair)

theorem pieces_textOf {l : List (GoString × GoString)} (ne : l ≠ []) :
    pieces (textOf l) = l.map writePair := by
  refine pieces_joinWith (by simpa using ne) fun p hp => ?_
  obtain ⟨q, _, rfl⟩ := List.mem_map.mp hp
  exact notMem_writePair (by decide) q

theorem queryPairs_textOf (l : List (GoString × GoString)) : queryPairs (textOf l) = some l := by
  by_cases ne : l = []
  · subst ne
    rfl
  · refine queryPairs_joinWith (by simpa using ne) (fun p hp => ?_) ?_
    · obtain ⟨q, _, rfl⟩ := List.mem_map.mp hp
      exact notMem_writePair (by decide) q
    · rw [List.map_map]
      exact List.map_congr_left fun q _ => parsePair_writePair q

namespace Values

/-- The order in which `Encode` takes the names. -/
def nameLe (a b : GoString) : Bool := a ≤ b

theorem nameLe_trans (a b c : GoString) (h : nameLe a b = true) (h' : nameLe b c = true) :
    nameLe a c = true := by
  simp only [nameLe, decide_eq_true_eq] at h h' ⊢
  exact List.le_trans h h'

theorem nameLe_total (a b : GoString) : (nameLe a b || nameLe b a) = true := by
  simpa [nameLe] using List.le_total a b

theorem nameLe_antisymm (a b : GoString) (h : nameLe a b = true) (h' : nameLe b a = true) :
    a = b := by
  simp only [nameLe, decide_eq_true_eq] at h h'
  exact List.le_antisymm h h'

/-- The pairs of the entries, in their order. -/
def listed (es : Values) : List (GoString × GoString) := es.flatMap fun e => e.2.map fun v => (e.1, v)

theorem valuesOf_listed {es : Values} (keys : (es.map Prod.fst).Nodup) (k : GoString) :
    valuesOf k es.listed = es.lookup k := by
  have one (e : GoString × List GoString) :
      valuesOf k (e.2.map fun v => (e.1, v)) = if e.1 = k then e.2 else [] := by
    by_cases eq : e.1 = k <;> simp [valuesOf, eq, List.filter_map, Function.comp_def]
  induction es with
  | nil => rfl
  | cons e es ih =>
    rw [List.map_cons, List.nodup_cons] at keys
    have tail : valuesOf k (List.flatMap (fun e => e.2.map fun v => (e.1, v)) es) =
        lookup es k := ih keys.2
    rw [listed, List.flatMap_cons, valuesOf_concat, one, tail, lookup_cons]
    by_cases eq : e.1 = k
    · rw [if_pos eq, if_pos eq, lookup_of_notMem (eq ▸ keys.1), List.append_nil]
    · rw [if_neg eq, if_neg eq, List.nil_append]

theorem lookup_perm {es m : Values} (perm : es.Perm m) (keys : (m.map Prod.fst).Nodup)
    (k : GoString) : es.lookup k = m.lookup k := by
  have names := perm.map Prod.fst
  by_cases known : k ∈ m.map Prod.fst
  · obtain ⟨e, he, rfl⟩ := List.mem_map.mp known
    rw [lookup_of_mem keys he, lookup_of_mem (names.nodup_iff.mpr keys) (perm.mem_iff.mpr he)]
  · rw [lookup_of_notMem known, lookup_of_notMem fun mem => known (names.mem_iff.mp mem)]

theorem sorted_listed {es : Values} (sorted : es.Pairwise fun a b => nameLe a.1 b.1 = true) :
    SortedByName nameLe es.listed := by
  refine List.pairwise_flatMap.mpr ⟨fun e _ => ?_, sorted.imp fun {a b} le p hp q hq => ?_⟩
  · refine List.pairwise_map.mpr (List.pairwise_of_forall fun _ _ => ?_)
    simpa using nameLe_total e.1 e.1
  · obtain ⟨_, _, rfl⟩ := List.mem_map.mp hp
    obtain ⟨_, _, rfl⟩ := List.mem_map.mp hq
    exact le

/-- `Encode` writes the pairs sorted by name. -/
theorem Represents.encode_eq {m : Values} {l : List (GoString × GoString)}
    (r : m.Represents l) : m.encode = textOf (sortByName nameLe l) := by
  have perm := List.mergeSort_perm m fun a b => nameLe a.1 b.1
  have keys : ((m.mergeSort fun a b => nameLe a.1 b.1).map Prod.fst).Nodup :=
    (perm.map Prod.fst).nodup_iff.mpr r.keys
  have sorted : (m.mergeSort fun a b => nameLe a.1 b.1).Pairwise fun a b => nameLe a.1 b.1 = true :=
    List.pairwise_mergeSort (fun a b c => nameLe_trans a.1 b.1 c.1)
      (fun a b => nameLe_total a.1 b.1) m
  have same : listed (m.mergeSort fun a b => nameLe a.1 b.1) = sortByName nameLe l := by
    refine eq_of_valuesOf nameLe_total nameLe_antisymm (sorted_listed sorted)
      (sorted_sortByName nameLe_trans nameLe_total l) fun k => ?_
    rw [valuesOf_listed keys, lookup_perm perm r.keys, r.values,
      valuesOf_sortByName nameLe_trans nameLe_total]
  rw [textOf, ← same, listed, List.map_flatMap]
  simp only [List.map_map]
  rfl

end Values

end NetUrl
