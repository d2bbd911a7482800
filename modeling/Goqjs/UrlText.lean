import Mathlib.Tactic.Push
import Goqjs.NetUrl

/-!
# The parts of a URL in its text

Behind `scheme://` the separators cut a text into its parts in one way only. `Parse` reads
each part for itself, and `String` writes the parts of what was parsed between the same
separators.
-/

namespace NetUrl

open Qjs Separators

/-- What stands behind `//`, cut into its parts: the user name and what its colon leads, the
host, and what the slash, the question mark and the number sign lead. -/
structure Written where
  user : Option (GoString × Option GoString)
  host : GoString
  path : Option GoString
  query : Option GoString
  fragment : Option GoString
  deriving DecidableEq

namespace Written

def userText (u : GoString × Option GoString) : GoString := u.1 ++ led colon u.2

variable (w : Written)

def authority : GoString := closed atSign (w.user.map userText) ++ w.host
def upToPath : GoString := w.authority ++ led slash w.path
def front : GoString := w.upToPath ++ led question w.query
def text : GoString := w.front ++ led hash w.fragment

/-- No separator stands in a part that it would end. -/
structure Separated : Prop where
  user : ∀ u ∈ w.user, colon ∉ u.1
  host : atSign ∉ w.host
  authority : slash ∉ w.authority
  path : question ∉ w.upToPath
  front : hash ∉ w.front

def ofText (t : GoString) : Written :=
  let front := cut hash t
  let upToPath := cut question front.1
  let authority := cut slash upToPath.1
  let user := cutLast atSign authority.1
  { user := user.1.map (cut colon)
    host := user.2
    path := authority.2
    query := upToPath.2
    fragment := front.2 }

variable {w}

theorem map_cut_userText {o : Option (GoString × Option GoString)}
    (h : ∀ u ∈ o, colon ∉ u.1) : (o.map userText).map (cut colon) = o := by
  cases o with
  | none => rfl
  | some u => simp [userText, cut_glue (h u rfl)]

theorem ofText_text (h : w.Separated) : ofText w.text = w := by
  have hash := cut_glue h.front w.fragment
  have question := cut_glue h.path w.query
  have slash := cut_glue h.authority w.path
  have atSign := cutLast_glue h.host (w.user.map userText)
  simp only [ofText, text, hash]
  simp only [front, question]
  simp only [upToPath, slash]
  simp only [authority, atSign, map_cut_userText h.user]

theorem text_ofText (t : GoString) : (ofText t).text = t ∧ (ofText t).Separated := by
  have hash := glue_cut hash t
  have question := glue_cut question (cut NetUrl.hash t).1
  have slash := glue_cut slash (cut NetUrl.question (cut NetUrl.hash t).1).1
  have atSign := glue_cutLast atSign
    (cut NetUrl.slash (cut NetUrl.question (cut NetUrl.hash t).1).1).1
  have users (o : Option GoString) : (o.map (cut colon)).map userText = o := by
    cases o with
    | none => rfl
    | some u => exact congrArg some (glue_cut colon u)
  have authority : (ofText t).authority =
      (cut NetUrl.slash (cut NetUrl.question (cut NetUrl.hash t).1).1).1 := by
    rw [Written.authority]
    simp only [ofText, users]
    exact atSign
  have upToPath : (ofText t).upToPath = (cut NetUrl.question (cut NetUrl.hash t).1).1 := by
    rw [Written.upToPath, authority]
    exact slash
  have front : (ofText t).front = (cut NetUrl.hash t).1 := by
    rw [Written.front, upToPath]
    exact question
  refine ⟨?_, ⟨?_, notMem_cutLast _ _, ?_, ?_, ?_⟩⟩
  · rw [text, front]
    exact hash
  · intro u hu
    obtain ⟨s, _, rfl⟩ := Option.map_eq_some_iff.mp hu
    exact notMem_cut colon s
  · rw [authority]
    exact notMem_cut _ _
  · rw [upToPath]
    exact notMem_cut _ _
  · rw [front]
    exact notMem_cut _ _

/-- A text has its parts in one way only. -/
theorem eq_of_text {v : Written} (hw : w.Separated) (hv : v.Separated) (h : w.text = v.text) :
    w = v := by
  rw [← ofText_text hw, h, ofText_text hv]

/-- The same, piece by piece. -/
structure Clean (w : Written) : Prop where
  colon : ∀ u ∈ w.user, colon ∉ u.1
  user : ∀ u ∈ w.user, ∀ c ∈ [slash, question, hash], c ∉ u.1 ∧ ∀ q ∈ u.2, c ∉ q
  host : ∀ c ∈ [atSign, slash, question, hash], c ∉ w.host
  path : ∀ p ∈ w.path, question ∉ p ∧ hash ∉ p
  query : ∀ q ∈ w.query, hash ∉ q

theorem mem_led {a c : UInt8} {o : Option GoString} (ne : a ≠ c) :
    a ∈ led c o ↔ ∃ s ∈ o, a ∈ s := by
  cases o <;> simp [ne]

theorem mem_authority {a : UInt8} (notColon : a ≠ NetUrl.colon) (notAt : a ≠ atSign) :
    a ∈ w.authority ↔ (∃ u ∈ w.user, a ∈ u.1 ∨ ∃ q ∈ u.2, a ∈ q) ∨ a ∈ w.host := by
  rw [authority, List.mem_append]
  refine or_congr_left ?_
  cases w.user with
  | none => simp
  | some u => simp [userText, notAt, mem_led notColon]

theorem mem_upToPath {a : UInt8} (ne : a ≠ slash) :
    a ∈ w.upToPath ↔ a ∈ w.authority ∨ ∃ p ∈ w.path, a ∈ p := by
  rw [upToPath, List.mem_append, mem_led ne]

theorem mem_front {a : UInt8} (ne : a ≠ question) :
    a ∈ w.front ↔ a ∈ w.upToPath ∨ ∃ q ∈ w.query, a ∈ q := by
  rw [front, List.mem_append, mem_led ne]

theorem separated_iff_clean : w.Separated ↔ w.Clean := by
  have slashes := mem_authority (w := w) (a := slash) (by decide) (by decide)
  have questions := mem_authority (w := w) (a := question) (by decide) (by decide)
  have hashes := mem_authority (w := w) (a := hash) (by decide) (by decide)
  have pathQuestions := mem_upToPath (w := w) (a := question) (by decide)
  have pathHashes := mem_upToPath (w := w) (a := hash) (by decide)
  have queryHashes := mem_front (w := w) (a := hash) (by decide)
  constructor
  · rintro ⟨user, host, authority, path, front⟩
    rw [slashes] at authority
    rw [pathQuestions, questions] at path
    rw [queryHashes, pathHashes, hashes] at front
    push Not at authority path front
    refine ⟨user, fun u hu c hc => ?_, fun c hc => ?_, fun p hp => ?_, fun q hq => front.2 q hq⟩
    · simp only [List.mem_cons, List.not_mem_nil, or_false] at hc
      rcases hc with rfl | rfl | rfl
      · exact authority.1 u hu
      · exact path.1.1 u hu
      · exact front.1.1.1 u hu
    · simp only [List.mem_cons, List.not_mem_nil, or_false] at hc
      rcases hc with rfl | rfl | rfl | rfl
      · exact host
      · exact authority.2
      · exact path.1.2
      · exact front.1.1.2
    · exact ⟨path.2 p hp, front.1.2 p hp⟩
  · rintro ⟨colon, user, host, path, query⟩
    refine ⟨colon, host _ (by simp), ?_, ?_, ?_⟩
    · rw [slashes]
      push Not
      exact ⟨fun u hu => user u hu _ (by simp), host _ (by simp)⟩
    · rw [pathQuestions, questions]
      push Not
      exact ⟨⟨fun u hu => user u hu _ (by simp), host _ (by simp)⟩, fun p hp => (path p hp).1⟩
    · rw [queryHashes, pathHashes, hashes]
      push Not
      exact ⟨⟨⟨fun u hu => user u hu _ (by simp), host _ (by simp)⟩, fun p hp => (path p hp).2⟩,
        query⟩

end Written

/-- The bytes before a URL's parts. -/
def start (scheme : GoString) : GoString := scheme ++ [colon, slash, slash]

theorem schemeFrom_letters (raw rest : GoString) {before letters : GoString}
    (h : ∀ c ∈ letters, isLetter c = true) (ne : before ++ letters ≠ []) :
    schemeFrom raw before (letters ++ colon :: rest) = some (before ++ letters, rest) := by
  induction letters generalizing before with
  | nil =>
    rw [List.append_nil] at ne ⊢
    rw [List.nil_append, schemeFrom, if_neg (by decide), if_neg (by decide), if_pos rfl, if_neg ne]
  | cons c letters ih =>
    have more : (before ++ [c]) ++ letters ≠ [] := by simp
    have tail := ih (fun d hd => h d (List.mem_cons_of_mem _ hd)) more
    rw [List.cons_append, schemeFrom, if_pos (h c List.mem_cons_self), tail]
    simp

/-- Where there is a scheme, it stands before a colon. -/
theorem schemeFrom_some {raw s before scheme rest : GoString}
    (h : schemeFrom raw before s = some (scheme, rest)) :
    scheme = [] ∨ before ++ s = scheme ++ colon :: rest := by
  induction s generalizing before with
  | nil =>
    rw [schemeFrom] at h
    cases h
    exact .inl rfl
  | cons c s ih =>
    rw [schemeFrom] at h
    split_ifs at h with letter other
    · simpa using ih h
    · cases h
      exact .inl rfl
    · simpa using ih h
    · rename_i eq _
      cases h
      exact .inr (by rw [eq])
    · cases h
      exact .inl rfl

theorem cutQuery_glue {rest : GoString} (h : question ∉ rest) (query : Option GoString) :
    cutQuery (rest ++ led question query) = (rest, decide (query = some []), query.getD []) := by
  have other (ne : query ≠ some []) : ¬ ((rest ++ led question query).getLast? = some question ∧
      (rest ++ led question query).count question = 1) := by
    rintro ⟨last, count⟩
    cases query with
    | none =>
      rw [led_none, List.append_nil, List.count_eq_zero_of_not_mem h] at count
      cases count
    | some q =>
      have nonempty : q ≠ [] := fun eq => ne (congrArg some eq)
      rw [led_some, List.count_append, List.count_cons_self, List.count_eq_zero_of_not_mem h]
        at count
      rw [led_some, List.getLast?_append_cons] at last
      have mem : question ∈ q := by
        have last' : q.getLast? = some question := by
          rwa [List.getLast?_cons_of_ne_nil nonempty] at last
        exact List.mem_of_getLast? last'
      have positive := List.count_pos_iff.mpr mem
      omega
  unfold cutQuery
  by_cases empty : query = some []
  · subst empty
    have one : (rest ++ [question]).count question = 1 := by
      rw [List.count_append, List.count_eq_zero_of_not_mem h]
      rfl
    rw [led_some, if_pos ⟨by simp, one⟩]
    simp
  · rw [if_neg (other empty), cut_glue h]
    simp [empty]

theorem cutQuery_prefix (rest : GoString) : (cutQuery rest).1 <+: rest := by
  unfold cutQuery
  split_ifs
  · exact List.dropLast_prefix rest
  · exact ⟨_, glue_cut question rest⟩

/-- How the written user information is read. -/
inductive ReadsUser : Option (GoString × Option GoString) → Option Userinfo → Prop where
  | absent : ReadsUser none none
  | name {n d : GoString} (valid : validUserinfo n = true)
      (name : unescape n .userPassword = some d) : ReadsUser (some (n, none)) (some ⟨d, none⟩)
  | password {n d q e : GoString} (valid : validUserinfo (n ++ colon :: q) = true)
      (name : unescape n .userPassword = some d) (password : unescape q .userPassword = some e) :
      ReadsUser (some (n, some q)) (some ⟨d, some e⟩)

theorem parseUserinfo_eq_some_iff {n : GoString} {q : Option GoString} {user : Userinfo}
    (h : colon ∉ n) : parseUserinfo (n ++ led colon q) = some user ↔
      ReadsUser (some (n, q)) (some user) := by
  unfold parseUserinfo
  constructor
  · intro read
    split_ifs at read with valid
    replace valid : validUserinfo (n ++ led colon q) = true := by simpa using valid
    rw [cut_glue h] at read
    cases q with
    | none =>
      obtain ⟨d, hd, eq⟩ := Option.bind_eq_some_iff.mp read
      cases eq
      exact .name (by simpa using valid) hd
    | some q =>
      obtain ⟨d, hd, read⟩ := Option.bind_eq_some_iff.mp read
      obtain ⟨e, he, eq⟩ := Option.bind_eq_some_iff.mp read
      cases eq
      exact .password valid hd he
  · rintro (_ | ⟨valid, name⟩ | ⟨valid, name, password⟩)
    · rw [led_none, List.append_nil, cut_of_notMem h]
      simp [valid, name]
    · rw [cut_glue h]
      simp [valid, name, password]

section Parse

variable {isIPv6 : GoString → Bool}

/-- What `Parse` has read of the parts, the URL put together. -/
structure Reads (isIPv6 : GoString → Bool) (scheme : GoString) (w : Written) (u : URL) : Prop where
  named : u.scheme = scheme
  opaquePart : u.opaquePart = []
  omitHost : u.omitHost = false
  user : ReadsUser w.user u.user
  host : parseHost isIPv6 scheme w.host = some u.host
  path : unescape (led slash w.path) .path = some u.path
  rawPath : u.rawPath =
    if led slash w.path = escape u.path .path then [] else led slash w.path
  forceQuery : u.forceQuery = decide (w.query = some [])
  rawQuery : u.rawQuery = w.query.getD []
  fragment : unescape (w.fragment.getD []) .fragment = some u.fragment
  rawFragment : u.rawFragment =
    if w.fragment.getD [] = escape u.fragment .fragment then [] else w.fragment.getD []

theorem parseAuthority_eq_some_iff {w : Written} (sep : w.Separated) {scheme : GoString}
    {user : Option Userinfo} {host : GoString} :
    parseAuthority isIPv6 scheme w.authority = some (user, host) ↔
      parseHost isIPv6 scheme w.host = some host ∧ ReadsUser w.user user := by
  rw [parseAuthority, Written.authority, cutLast_glue sep.host]
  simp only [Option.bind_eq_bind, Option.bind_eq_some_iff]
  constructor
  · rintro ⟨h, hhost, rest⟩
    cases hu : w.user with
    | none =>
      rw [hu] at rest
      cases rest
      exact ⟨hhost, .absent⟩
    | some u =>
      rw [hu] at rest
      obtain ⟨info, hinfo, eq⟩ := Option.bind_eq_some_iff.mp rest
      cases eq
      exact ⟨hhost, (parseUserinfo_eq_some_iff (sep.user u hu)).mp hinfo⟩
  · rintro ⟨hhost, read⟩
    refine ⟨host, hhost, ?_⟩
    cases hu : w.user with
    | none =>
      rw [hu] at read
      cases read
      rfl
    | some u =>
      rw [hu] at read
      cases user with
      | none => cases read
      | some info =>
        have parsed := (parseUserinfo_eq_some_iff (sep.user u hu)).mpr read
        rw [← Written.userText] at parsed
        simp [parsed]

theorem setPath_eq_some_iff {v u : URL} {p : GoString} :
    setPath v p = some u ↔ unescape p .path = some u.path ∧
      u = { v with path := u.path, rawPath := if p = escape u.path .path then [] else p } := by
  simp only [setPath, Option.bind_eq_bind, Option.bind_eq_some_iff]
  constructor
  · rintro ⟨d, hd, eq⟩
    cases eq
    exact ⟨hd, rfl⟩
  · rintro ⟨hd, eq⟩
    exact ⟨u.path, hd, congrArg some eq.symm⟩

/-- The URL that `parse` makes of the parts before the fragment. -/
def frontURL (scheme : GoString) (w : Written) (user : Option Userinfo) (host : GoString) : URL :=
  { newURL with
    scheme, user, host
    forceQuery := decide (w.query = some [])
    rawQuery := w.query.getD [] }

theorem parse_front {w : Written} (sep : w.Separated) {scheme : GoString} (ne : scheme ≠ [])
    (letters : ∀ c ∈ scheme, isLetter c = true) :
    parse isIPv6 (start scheme ++ w.front) =
      if stringContainsCTLByte (start scheme ++ w.front) then none
      else (parseAuthority isIPv6 (toLower scheme) w.authority).bind fun p =>
        setPath (frontURL (toLower scheme) w p.1 p.2) (led slash w.path) := by
  have shape : start scheme ++ w.front =
      scheme ++ colon :: slash :: slash :: (w.upToPath ++ led question w.query) := by
    simp [start, Written.front]
  have nonempty : [] ++ scheme ≠ [] := ne
  have named := schemeFrom_letters (start scheme ++ w.front)
    (slash :: slash :: (w.upToPath ++ led question w.query)) letters nonempty
  have query : question ∉ slash :: slash :: w.upToPath := by
    simpa [show question ≠ slash by decide] using sep.path
  have queries := cutQuery_glue query w.query
  have authority := cut_glue sep.authority w.path
  have lower : toLower scheme ≠ [] := by simpa [toLower] using ne
  have star : start scheme ++ w.front ≠ ascii "*" := by
    intro eq
    have mem : colon ∈ start scheme ++ w.front := by simp [start]
    rw [eq] at mem
    exact absurd mem (by decide)
  rw [← shape, List.nil_append] at named
  rw [List.cons_append, List.cons_append] at queries
  unfold parse
  rw [if_neg star]
  congr 1
  simp only [getScheme, named, Option.bind_eq_bind, Option.bind_some, queries, List.head?_cons]
  rw [if_neg (by simp), if_neg (by simp), if_pos ⟨.inl lower, by simp [ascii]⟩]
  simp only [List.drop_succ_cons, List.drop_zero]
  rw [show cut slash w.upToPath = _ from authority]
  rfl

theorem letter_ne {c : UInt8} (h : isLetter c = true) : c ≠ colon ∧ c ≠ slash ∧ c ≠ hash := by
  refine ⟨?_, ?_, ?_⟩ <;> rintro rfl <;> revert h <;> decide

/-- An empty fragment leaves a URL without one as it is. -/
theorem setFragment_getD {v : URL} (fragment : v.fragment = []) (rawFragment : v.rawFragment = [])
    (frag : Option GoString) :
    (match frag with
      | none | some [] => some v
      | some f => setFragment v f) = setFragment v (frag.getD []) := by
  have empty : setFragment v [] = some v := by
    change some { v with fragment := [], rawFragment := [] } = some v
    cases v
    simp only at fragment rawFragment
    rw [fragment, rawFragment]
  cases frag with
  | none => exact empty.symm
  | some f =>
    cases f with
    | nil => exact empty.symm
    | cons c f => rfl

theorem setFragment_eq_some_iff {v u : URL} {f : GoString} :
    setFragment v f = some u ↔ unescape f .fragment = some u.fragment ∧
      u = { v with
        fragment := u.fragment
        rawFragment := if f = escape u.fragment .fragment then [] else f } := by
  simp only [setFragment, Option.bind_eq_bind, Option.bind_eq_some_iff]
  constructor
  · rintro ⟨d, hd, eq⟩
    cases eq
    exact ⟨hd, rfl⟩
  · rintro ⟨hd, eq⟩
    exact ⟨u.fragment, hd, congrArg some eq.symm⟩

theorem Parse_text {w : Written} (sep : w.Separated) {scheme : GoString} (ne : scheme ≠ [])
    (letters : ∀ c ∈ scheme, isLetter c = true) :
    Parse isIPv6 (start scheme ++ w.text) =
      if stringContainsCTLByte (start scheme ++ w.front) then none
      else (parseAuthority isIPv6 (toLower scheme) w.authority).bind fun p =>
        (setPath (frontURL (toLower scheme) w p.1 p.2) (led slash w.path)).bind fun v =>
          setFragment v (w.fragment.getD []) := by
  have noHash : hash ∉ start scheme ++ w.front := by
    intro mem
    rcases List.mem_append.mp mem with mem | mem
    · rcases List.mem_append.mp mem with mem | mem
      · exact (letter_ne (letters _ mem)).2.2 rfl
      · exact absurd mem (by decide)
    · exact sep.front mem
  have whole := cut_glue noHash w.fragment
  rw [List.append_assoc, ← Written.text] at whole
  simp only [Parse, whole, parse_front sep ne letters, Option.bind_eq_bind]
  cases stringContainsCTLByte (start scheme ++ w.front) with
  | true => rfl
  | false =>
    simp only [Bool.false_eq_true, if_false, Option.bind_assoc]
    refine Option.bind_congr fun p _ => Option.bind_congr fun v hv => ?_
    have eq := (setPath_eq_some_iff.mp hv).2
    exact setFragment_getD (by rw [eq]; rfl) (by rw [eq]; rfl) w.fragment

/-- All that is to be known about a parsed URL with an authority. -/
theorem Parse_eq_some_iff {w : Written} (sep : w.Separated) {scheme : GoString} (ne : scheme ≠ [])
    (letters : ∀ c ∈ scheme, isLetter c = true) {u : URL} :
    Parse isIPv6 (start scheme ++ w.text) = some u ↔
      stringContainsCTLByte (start scheme ++ w.front) = false ∧
        Reads isIPv6 (toLower scheme) w u := by
  rw [Parse_text sep ne letters]
  cases stringContainsCTLByte (start scheme ++ w.front) with
  | true => simp
  | false =>
    simp only [Bool.false_eq_true, if_false, true_and, Option.bind_eq_some_iff]
    constructor
    · rintro ⟨⟨user, host⟩, authority, v, front, fragment⟩
      obtain ⟨hhost, huser⟩ := (parseAuthority_eq_some_iff sep).mp authority
      obtain ⟨path, hv⟩ := setPath_eq_some_iff.mp front
      obtain ⟨frag, hu⟩ := setFragment_eq_some_iff.mp fragment
      rw [hu, hv]
      exact ⟨rfl, rfl, rfl, huser, hhost, path, rfl, rfl, rfl, frag, rfl⟩
    · intro r
      refine ⟨(u.user, u.host), (parseAuthority_eq_some_iff sep).mpr ⟨r.host, r.user⟩,
        { u with fragment := [], rawFragment := [] }, setPath_eq_some_iff.mpr ⟨r.path, ?_⟩,
        setFragment_eq_some_iff.mpr ⟨r.fragment, ?_⟩⟩
      · have named := r.named
        have opaquePart := r.opaquePart
        have omitHost := r.omitHost
        have rawPath := r.rawPath
        have forceQuery := r.forceQuery
        have rawQuery := r.rawQuery
        cases u
        simp only at named opaquePart omitHost rawPath forceQuery rawQuery
        rw [← rawPath]
        subst named opaquePart omitHost forceQuery rawQuery
        rfl
      · have rawFragment := r.rawFragment
        cases u
        simp only at rawFragment
        rw [← rawFragment]

/-- The schemes of the web. -/
def IsWeb (scheme : GoString) : Prop := scheme = ascii "http" ∨ scheme = ascii "https"

instance (scheme : GoString) : Decidable (IsWeb scheme) := by
  unfold IsWeb
  infer_instance

theorem isWeb_letters {scheme : GoString} (h : IsWeb (toLower scheme)) :
    ∀ c ∈ scheme, isLetter c = true := by
  intro c hc
  have mem : (if 0x41 ≤ c && c ≤ 0x5A then c + 0x20 else c) ∈ toLower scheme :=
    List.mem_map.mpr ⟨c, hc, rfl⟩
  have letter : isLetter (if 0x41 ≤ c && c ≤ 0x5A then c + 0x20 else c) = true := by
    have web : ∀ d ∈ toLower scheme, isLetter d = true := by
      rcases h with h | h <;> rw [h] <;> decide
    exact web _ mem
  split_ifs at letter with upper
  · simp only [isLetter, Bool.or_eq_true]
    exact .inr upper
  · exact letter

/-- A fragment changes neither the scheme nor the host. -/
theorem Parse_front {s : GoString} {u : URL} (h : Parse isIPv6 s = some u) :
    ∃ v, parse isIPv6 (cut hash s).1 = some v ∧ v.scheme = u.scheme ∧ v.host = u.host := by
  obtain ⟨v, hv, h⟩ := Option.bind_eq_some_iff.mp h
  refine ⟨v, hv, ?_⟩
  cases hf : (cut hash s).2 with
  | none =>
    rw [hf] at h
    cases h
    exact ⟨rfl, rfl⟩
  | some f =>
    rw [hf] at h
    cases f with
    | nil =>
      cases h
      exact ⟨rfl, rfl⟩
    | cons c f =>
      obtain ⟨_, eq⟩ := setFragment_eq_some_iff.mp h
      rw [eq]
      exact ⟨rfl, rfl⟩

/-- A scheme and a host are read only of a text with an authority. -/
theorem parse_authority {front : GoString} {v : URL} (h : parse isIPv6 front = some v)
    (named : v.scheme ≠ []) (host : v.host ≠ []) :
    ∃ scheme rest, front = start scheme ++ rest ∧ scheme ≠ [] ∧ toLower scheme = v.scheme := by
  unfold parse at h
  split_ifs at h with ctl star
  · cases h
    exact absurd rfl host
  · obtain ⟨⟨scheme, rest⟩, hscheme, h⟩ := Option.bind_eq_some_iff.mp h
    have stem := cutQuery_prefix rest
    have before := schemeFrom_some hscheme
    rcases hq : cutQuery rest with ⟨rest', force, query⟩
    rw [hq] at stem
    simp only [hq] at h
    split_ifs at h with isOpaque colons slashes
    · cases h
      exact absurd rfl host
    · obtain ⟨⟨user, host'⟩, _, hpath⟩ := Option.bind_eq_some_iff.mp h
      have eq := (setPath_eq_some_iff.mp hpath).2
      have lower : v.scheme = toLower scheme := by rw [eq]
      rw [lower] at named
      have ne : scheme ≠ [] := by
        rintro rfl
        exact named rfl
      obtain ⟨more, hmore⟩ := slashes.2.trans stem
      rcases before with before | before
      · exact absurd before ne
      · refine ⟨scheme, more, ?_, ne, lower.symm⟩
        rw [← List.nil_append front, before, ← hmore]
        simp [start, ascii]
    · have eq := (setPath_eq_some_iff.mp h).2
      rw [eq] at host
      exact absurd rfl host

/-- A URL of the web with a host comes from a text with an authority. -/
theorem exists_text {s : GoString} {u : URL} (h : Parse isIPv6 s = some u)
    (web : IsWeb u.scheme) (host : u.host ≠ []) :
    ∃ (scheme : GoString) (w : Written), s = start scheme ++ w.text ∧ w.Separated ∧
      scheme ≠ [] ∧ toLower scheme = u.scheme := by
  obtain ⟨v, hv, sameScheme, sameHost⟩ := Parse_front h
  have named : v.scheme ≠ [] := by
    rw [sameScheme]
    rcases web with eq | eq <;> rw [eq] <;> decide
  obtain ⟨scheme, rest, eq, ne, lower⟩ := parse_authority hv named (sameHost ▸ host)
  obtain ⟨text, sep⟩ := Written.text_ofText (rest ++ led hash (cut hash s).2)
  refine ⟨scheme, .ofText (rest ++ led hash (cut hash s).2), ?_, sep, ne, lower.trans sameScheme⟩
  rw [text, ← List.append_assoc, ← eq, glue_cut]

end Parse

end NetUrl
