import Goqjs.UrlLiteral

/-!
# The query in the text of a URL

Before the query of a URL that was parsed stands neither a question mark nor a hash, so the text
that `String` writes has the query of the text that was parsed, whatever the scheme.
-/

namespace NetUrl

open Quickjs Qjs Separators Percent

/-- The query of a text: behind the first question mark, before the first hash. -/
def queryPart (s : GoString) : GoString := (cut question (cut hash s).1).2.getD []

/-- No separator of a query or of a fragment. -/
def Unmarked (s : GoString) : Prop := question ∉ s ∧ hash ∉ s

namespace Unmarked

theorem nil : Unmarked [] := ⟨List.not_mem_nil, List.not_mem_nil⟩

theorem append {s t : GoString} (hs : Unmarked s) (ht : Unmarked t) : Unmarked (s ++ t) := by
  constructor
  · intro mem
    exact (List.mem_append.mp mem).elim hs.1 ht.1
  · intro mem
    exact (List.mem_append.mp mem).elim hs.2 ht.2

theorem cons {c : UInt8} {s : GoString} (notQuestion : c ≠ question) (notHash : c ≠ hash)
    (hs : Unmarked s) : Unmarked (c :: s) :=
  ⟨List.not_mem_cons_of_ne_of_not_mem notQuestion.symm hs.1,
    List.not_mem_cons_of_ne_of_not_mem notHash.symm hs.2⟩

theorem closed {s : Option GoString} (hs : ∀ p ∈ s, Unmarked p) {c : UInt8}
    (notQuestion : c ≠ question) (notHash : c ≠ hash) : Unmarked (closed c s) := by
  cases s with
  | none => exact nil
  | some p => exact (hs p rfl).append (nil.cons notQuestion notHash)

end Unmarked

theorem queryPart_glue {front : GoString} (unmarked : Unmarked front) {query : Option GoString}
    (noHash : hash ∉ query.getD []) (fragment : Option GoString) :
    queryPart (front ++ led question query ++ led hash fragment) = query.getD [] := by
  have before : hash ∉ front ++ led question query := by
    intro mem
    rcases List.mem_append.mp mem with mem | mem
    · exact unmarked.2 mem
    · cases query with
      | none => cases mem
      | some q => exact (List.mem_cons.mp mem).elim (by decide) noHash
  rw [queryPart, cut_glue before, cut_glue unmarked.1]

theorem cut_viaString {c : UInt8} (ascii : c.toNat < 0x80) (s : GoString) :
    cut c (viaString s) = (viaString (cut c s).1, (cut c s).2.map viaString) := by
  have clean : c ∉ viaString (cut c s).1 := by
    intro mem
    exact notMem_cut c s ((mem_viaString ascii).mp mem)
  conv_lhs => rw [← glue_cut c s, viaString_led ascii]
  exact cut_glue clean _

/-- The engine does not move the query. -/
theorem queryPart_viaString (s : GoString) : queryPart (viaString s) = viaString (queryPart s) := by
  unfold queryPart
  rw [cut_viaString (by decide), cut_viaString (by decide)]
  cases (cut question (cut hash s).1).2 with
  | none => exact viaString_nil.symm
  | some q => rfl

/-- A scheme is cut off the text, or there is none. -/
theorem schemeFrom_cases {raw s before scheme rest : GoString} (unmarked : Unmarked before)
    (h : schemeFrom raw before s = some (scheme, rest)) :
    (scheme = [] ∧ rest = raw) ∨ (Unmarked scheme ∧ before ++ s = scheme ++ colon :: rest) := by
  induction s generalizing before with
  | nil =>
    rw [schemeFrom] at h
    cases h
    exact .inl ⟨rfl, rfl⟩
  | cons c s ih =>
    have longer (notQuestion : c ≠ question) (notHash : c ≠ hash)
        (h : schemeFrom raw (before ++ [c]) s = some (scheme, rest)) :
        (scheme = [] ∧ rest = raw) ∨
          (Unmarked scheme ∧ before ++ c :: s = scheme ++ colon :: rest) := by
      simpa using ih (unmarked.append (Unmarked.nil.cons notQuestion notHash)) h
    rw [schemeFrom] at h
    split_ifs at h with letter other first
    · refine longer ?_ ?_ h <;> rintro rfl <;> revert letter <;> decide
    · cases h
      exact .inl ⟨rfl, rfl⟩
    · refine longer ?_ ?_ h <;> rintro rfl <;> revert other <;> decide
    · rename_i eq _
      cases h
      exact .inr ⟨unmarked, by rw [eq]⟩
    · cases h
      exact .inl ⟨rfl, rfl⟩

theorem unmarked_toLower {s : GoString} (h : Unmarked s) : Unmarked (toLower s) := by
  have lower (c : UInt8) :
      ((if 0x41 ≤ c && c ≤ 0x5A then c + 0x20 else c) = question → c = question) ∧
        ((if 0x41 ≤ c && c ≤ 0x5A then c + 0x20 else c) = hash → c = hash) := by
    refine forall_byte (P := fun c =>
      ((if 0x41 ≤ c && c ≤ 0x5A then c + 0x20 else c) = question → c = question) ∧
        ((if 0x41 ≤ c && c ≤ 0x5A then c + 0x20 else c) = hash → c = hash)) ?_ c
    decide +kernel
  constructor
  · intro mem
    obtain ⟨c, hc, eq⟩ := List.mem_map.mp mem
    exact h.1 ((lower c).1 eq ▸ hc)
  · intro mem
    obtain ⟨c, hc, eq⟩ := List.mem_map.mp mem
    exact h.2 ((lower c).2 eq ▸ hc)

/-- What a URL that was parsed has before its query. -/
structure Marks (u : URL) : Prop where
  scheme : Unmarked u.scheme
  opaquePart : Unmarked u.opaquePart
  rawQuery : hash ∉ u.rawQuery

theorem cut_append {c : UInt8} {before : GoString} (h : c ∉ before) (rest : GoString) :
    cut c (before ++ rest) = (before ++ (cut c rest).1, (cut c rest).2) := by
  have clean : c ∉ before ++ (cut c rest).1 := by
    intro mem
    exact (List.mem_append.mp mem).elim h (notMem_cut c rest)
  conv_lhs => rw [← glue_cut c rest, ← List.append_assoc]
  exact cut_glue clean _

/-- `parse` takes the query behind the first question mark, and none before it stays. -/
theorem parse_marks {isIPv6 : GoString → Bool} {s : GoString} {u : URL}
    (h : parse isIPv6 s = some u) (noHash : hash ∉ s) :
    Marks u ∧ u.rawQuery = (cut question s).2.getD [] := by
  unfold parse at h
  split_ifs at h with ctl star
  · cases h
    rw [star]
    exact ⟨⟨.nil, .nil, List.not_mem_nil⟩, rfl⟩
  · obtain ⟨⟨scheme, rest⟩, hscheme, h⟩ := Option.bind_eq_some_iff.mp h
    have facts : Unmarked scheme ∧ rest ⊆ s ∧ (cut question s).2 = (cut question rest).2 := by
      rcases schemeFrom_cases .nil hscheme with ⟨rfl, rfl⟩ | ⟨unmarked, eq⟩
      · exact ⟨.nil, List.Subset.refl _, rfl⟩
      · rw [List.nil_append] at eq
        have before : question ∉ scheme ++ [colon] :=
          (unmarked.append (Unmarked.nil.cons (by decide) (by decide))).1
        have split : s = scheme ++ [colon] ++ rest := by simpa using eq
        rw [split, cut_append before]
        exact ⟨unmarked, List.subset_append_right _ _, rfl⟩
    obtain ⟨unmarked, sub, query⟩ := facts
    have whole := glue_cut question rest
    have front : question ∉ (cut question rest).1 := notMem_cut question rest
    have noHash' : hash ∉ rest := fun mem => noHash (sub mem)
    rw [query]
    generalize (cut question rest).1 = front', (cut question rest).2 = query' at whole front
    rw [← whole] at h noHash'
    have clean : Unmarked front' := ⟨front, fun mem => noHash' (List.mem_append_left _ mem)⟩
    have noHashQuery : hash ∉ query'.getD [] := by
      intro mem
      cases query' with
      | none => cases mem
      | some q => exact noHash' (List.mem_append_right _ (List.mem_cons_of_mem _ mem))
    simp only [cutQuery_glue front] at h
    split_ifs at h with isOpaque colons slashes
    · cases h
      exact ⟨⟨unmarked_toLower unmarked, clean, noHashQuery⟩, rfl⟩
    · obtain ⟨⟨user, host⟩, _, hpath⟩ := Option.bind_eq_some_iff.mp h
      rw [(setPath_eq_some_iff.mp hpath).2]
      exact ⟨⟨unmarked_toLower unmarked, .nil, noHashQuery⟩, rfl⟩
    · rw [(setPath_eq_some_iff.mp h).2]
      exact ⟨⟨unmarked_toLower unmarked, .nil, noHashQuery⟩, rfl⟩

/-- A fragment leaves the marks and the query. -/
theorem Parse_marks {isIPv6 : GoString → Bool} {s : GoString} {u : URL}
    (h : Parse isIPv6 s = some u) : Marks u ∧ u.rawQuery = queryPart s := by
  obtain ⟨v, hv, h⟩ := Option.bind_eq_some_iff.mp h
  have marks := parse_marks hv (notMem_cut hash s)
  cases hf : (cut hash s).2 with
  | none =>
    rw [hf] at h
    cases h
    exact marks
  | some f =>
    rw [hf] at h
    cases f with
    | nil =>
      cases h
      exact marks
    | cons c f =>
      obtain ⟨_, eq⟩ := setFragment_eq_some_iff.mp h
      rw [eq]
      exact ⟨⟨marks.1.scheme, marks.1.opaquePart, marks.1.rawQuery⟩, marks.2⟩

theorem unmarked_escape {mode : Encoding} (notForm : mode ≠ .queryComponent)
    (escaped : ∀ c ∈ [question, hash], shouldEscape c mode = true) (s : GoString) :
    Unmarked (escape s mode) := by
  have one (c : UInt8) (hc : c ∈ [question, hash]) : c ∉ escape s mode := by
    have other : ∀ c ∈ [question, hash], c ≠ percent ∧ Hex.value c = none := by decide
    exact notMem_escape notForm (escaped c hc) (other c hc).1 (other c hc).2 s
  exact ⟨one question (by simp), one hash (by simp)⟩

/-- A text that is valid for a path has no marks, so the hint brings none. -/
theorem unmarked_rawOr {raw part other : GoString} (h : Unmarked other) :
    Unmarked (URL.rawOr raw part .path other) := by
  unfold URL.rawOr
  split_ifs with hint
  · have valid (c : UInt8) (mem : c ∈ raw) :
        ((ascii "!$&'()*+,;=:@[]%").contains c || !shouldEscape c .path) = true :=
      List.all_eq_true.mp hint.2.1 c mem
    exact ⟨fun mem => absurd (valid _ mem) (by decide), fun mem => absurd (valid _ mem) (by decide)⟩
  · exact h

theorem unmarked_escapedPath (u : URL) : Unmarked u.escapedPath := by
  apply unmarked_rawOr
  split_ifs
  · exact ⟨by decide, by decide⟩
  · exact unmarked_escape (by decide) (by decide) _

theorem unmarked_userinfo (i : Userinfo) : Unmarked i.string := by
  have escaped (s : GoString) : Unmarked (escape s .userPassword) :=
    unmarked_escape (by decide) (by decide) s
  unfold Userinfo.string
  split
  · exact escaped _
  · exact (escaped _).append ((escaped _).cons (by decide) (by decide))

theorem Marks.stringStart {u : URL} (m : Marks u) : Unmarked u.stringStart := by
  have colons : Unmarked [colon] := Unmarked.nil.cons (by decide) (by decide)
  have slashes : Unmarked [slash, slash] :=
    (Unmarked.nil.cons (by decide) (by decide)).cons (by decide) (by decide)
  have user : Unmarked (closed atSign (u.user.map Userinfo.string)) := by
    refine Unmarked.closed (fun p hp => ?_) (by decide) (by decide)
    obtain ⟨i, _, rfl⟩ := Option.map_eq_some_iff.mp hp
    exact unmarked_userinfo i
  have host : Unmarked (escape u.host .host) := unmarked_escape (by decide) (by decide) _
  unfold URL.stringStart
  apply Unmarked.append
  · split_ifs
    · exact m.scheme.append colons
    · exact .nil
  · split_ifs
    · exact (slashes.append user).append host
    · exact (Unmarked.nil.append user).append host
    · exact .nil

theorem unmarked_stringPath (u : URL) (start : GoString) : Unmarked (u.stringPath start) := by
  have path := unmarked_escapedPath u
  have dot : Unmarked (ascii "./") := ⟨by decide, by decide⟩
  simp only [URL.stringPath]
  split_ifs
  · exact path.cons (by decide) (by decide)
  · exact dot.append path
  · exact path

/-- A URL that was parsed is written with its query in the query's place. -/
theorem queryPart_string {u : URL} (m : Marks u) : queryPart u.string = u.rawQuery := by
  have colons : Unmarked [colon] := Unmarked.nil.cons (by decide) (by decide)
  have front : Unmarked (if u.opaquePart ≠ [] then
      (if u.scheme ≠ [] then u.scheme ++ [colon] else []) ++ u.opaquePart
    else u.stringStart ++ u.stringPath u.stringStart) := by
    split_ifs
    · exact (m.scheme.append colons).append m.opaquePart
    · exact Unmarked.nil.append m.opaquePart
    · exact m.stringStart.append (unmarked_stringPath u _)
  have query : (if u.forceQuery = true ∨ u.rawQuery ≠ [] then question :: u.rawQuery else []) =
      led question (if u.forceQuery = true ∨ u.rawQuery ≠ [] then some u.rawQuery else none) := by
    split_ifs <;> rfl
  have fragment : (if u.fragment ≠ [] then hash :: u.escapedFragment else []) =
      led hash (if u.fragment ≠ [] then some u.escapedFragment else none) := by
    split_ifs <;> rfl
  have same : (if u.forceQuery = true ∨ u.rawQuery ≠ [] then some u.rawQuery else none).getD [] =
      u.rawQuery := by
    split_ifs with shown
    · rfl
    · exact (not_not.mp fun ne => shown (.inr ne)).symm
  unfold URL.string
  rw [query, fragment, queryPart_glue front (by rw [same]; exact m.rawQuery), same]

/-- The engine's text of a parsed URL has the query of the text that was parsed. -/
theorem queryPart_href {isIPv6 : GoString → Bool} {text : Str} {u : URL}
    (h : Parse isIPv6 (toCStringLen text) = some u) :
    queryPart (viaString u.string) = queryPart (toCStringLen text) ∧
      u.rawQuery = queryPart (toCStringLen text) := by
  obtain ⟨marks, query⟩ := Parse_marks h
  refine ⟨?_, query⟩
  rw [queryPart_viaString, queryPart_string marks, query, ← queryPart_viaString,
    viaString_toCStringLen]

end NetUrl
