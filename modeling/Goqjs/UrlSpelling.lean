import Goqjs.UrlText

/-!
# How a URL is written

`String` escapes the user information and the host anew. A path or a fragment keeps
the text it was parsed from where that is a valid way to write it. What it writes for a
URL with an authority is again a text cut by separators, and every part of it tells what it
was written for.
-/

namespace NetUrl

open Qjs Separators Percent

theorem escaped_percent (mode : Encoding) : shouldEscape percent mode = true := by
  cases mode <;> decide

theorem ascii_of_letter {c : UInt8} (h : isLetter c = true ∨ isDigit c = true) :
    c.toNat < 0x80 := by
  simp only [isLetter, isDigit, Bool.or_eq_true, Bool.and_eq_true, decide_eq_true_eq,
    UInt8.le_iff_toNat_le] at h
  have z : (0x7A : UInt8).toNat = 0x7A := rfl
  have upperZ : (0x5A : UInt8).toNat = 0x5A := rfl
  have nine : (0x39 : UInt8).toNat = 0x39 := rfl
  omega

/-- Everything outside ASCII is escaped. -/
theorem escaped_high {c : UInt8} (h : 0x80 ≤ c.toNat) (mode : Encoding) :
    shouldEscape c mode = true := by
  have notListed {s : GoString} (low : ∀ d ∈ s, d.toNat < 0x80) : s.contains c = false := by
    rw [Bool.eq_false_iff]
    intro mem
    have bound := low c (by simpa using mem)
    omega
  have notLetter : (isLetter c || isDigit c) = false := by
    rw [Bool.eq_false_iff]
    intro letter
    have bound := ascii_of_letter (by simpa using letter)
    omega
  unfold shouldEscape
  rw [if_neg (by simp [notLetter]), notListed (s := ascii "!$&'()*+,;=:[]<>\"") (by decide),
    notListed (s := ascii "-_.~") (by decide), notListed (s := ascii "$&+,/:;=?@") (by decide),
    notListed (s := ascii "!()*") (by decide)]
  simp

theorem digit_of_value {c : UInt8} (h : Hex.value c ≠ none) (mode : Encoding) :
    shouldEscape c mode = false := by
  have letter : (isLetter c || isDigit c) = true := by
    unfold Hex.value at h
    simp only [isLetter, isDigit, Bool.or_eq_true, Bool.and_eq_true, decide_eq_true_eq,
      UInt8.le_iff_toNat_le]
    have z : (0x7A : UInt8).toNat = 0x7A := rfl
    have upperZ : (0x5A : UInt8).toNat = 0x5A := rfl
    have nine : (0x39 : UInt8).toNat = 0x39 := rfl
    have a : (0x61 : UInt8).toNat = 0x61 := rfl
    have upperA : (0x41 : UInt8).toNat = 0x41 := rfl
    have zero : (0x30 : UInt8).toNat = 0x30 := rfl
    split_ifs at h with h1 h2 h3
    · omega
    · omega
    · omega
    · exact absurd rfl h
  unfold shouldEscape
  rw [if_pos letter]

/-- A part that reads every escape and every byte. -/
def Encoding.Free (mode : Encoding) : Prop := mode = .path ∨ mode = .userPassword ∨ mode = .fragment

theorem faithful_of_free {mode : Encoding} (free : mode.Free) : (coding mode).Faithful := by
  refine ⟨escaped_percent mode, fun c _ => ?_, fun c _ => ?_, fun form => ?_⟩
  · rcases free with rfl | rfl | rfl <;> rfl
  · rcases free with rfl | rfl | rfl <;> rfl
  · rcases free with rfl | rfl | rfl <;> cases form

theorem notForm_of_free {mode : Encoding} (free : mode.Free) : (coding mode).form = false := by
  rcases free with rfl | rfl | rfl <;> rfl

theorem stand_of_free {mode : Encoding} (free : mode.Free) (c : UInt8) :
    (coding mode).mayStand c = true := by
  rcases free with rfl | rfl | rfl <;> rfl

theorem unescape_escape {mode : Encoding} (free : mode.Free) (s : GoString) :
    unescape (escape s mode) mode = some s :=
  Coding.decode_encode (faithful_of_free free) s

theorem escape_injective {mode : Encoding} (notForm : mode ≠ .queryComponent) {s t : GoString}
    (h : escape s mode = escape t mode) : s = t :=
  Coding.encode_injective (escaped_percent mode)
    (fun form => absurd (by simpa [coding] using form) notForm) h

/-- A separator that a part escapes does not stand in it. -/
theorem notMem_escape {mode : Encoding} (notForm : mode ≠ .queryComponent) {c : UInt8}
    (escaped : shouldEscape c mode = true) (ne : c ≠ percent) (notDigit : Hex.value c = none)
    (s : GoString) : c ∉ escape s mode :=
  Coding.notMem_encode escaped ne notDigit (by simpa [coding] using notForm) s

theorem validEncoded_escape {mode : Encoding} (notForm : mode ≠ .queryComponent) (s : GoString) :
    validEncoded (escape s mode) mode = true := by
  refine List.all_eq_true.mpr fun c hc => ?_
  rw [Bool.or_eq_true]
  rcases Coding.mem_encode hc with rfl | digit | ⟨form, _⟩ | ⟨_, plain⟩
  · exact .inl (by decide)
  · exact .inr (by simp [digit_of_value digit mode])
  · exact absurd (by simpa [coding] using form) notForm
  · exact .inr (by simpa [coding] using plain)

/-- How a path or a fragment that was parsed from `p` is written. -/
def spelled (mode : Encoding) (p : GoString) : GoString :=
  if validEncoded p mode then p
  else
    match unescape p mode with
    | some d => escape d mode
    | none => p

theorem unescape_spelled {mode : Encoding} (free : mode.Free) {p d : GoString}
    (h : unescape p mode = some d) : unescape (spelled mode p) mode = some d := by
  unfold spelled
  split_ifs
  · exact h
  · rw [h]
    exact unescape_escape free d

theorem validEncoded_spelled {mode : Encoding} (notForm : mode ≠ .queryComponent) {p d : GoString}
    (h : unescape p mode = some d) : validEncoded (spelled mode p) mode = true := by
  unfold spelled
  split_ifs with valid
  · exact valid
  · rw [h]
    exact validEncoded_escape notForm d

/-- The hint of the encoding that is kept beside a part does what it is for. -/
theorem rawOr_eq_spelled {mode : Encoding} (notForm : mode ≠ .queryComponent) {p d : GoString}
    (h : unescape p mode = some d) :
    URL.rawOr (if p = escape d mode then [] else p) d mode (escape d mode) = spelled mode p := by
  unfold URL.rawOr spelled
  by_cases same : p = escape d mode
  · rw [if_pos same, if_neg (by simp), ← same, if_pos]
    rw [same]
    exact validEncoded_escape notForm d
  · have nonempty : p ≠ [] := by
      rintro rfl
      cases h
      exact same rfl
    rw [if_neg same, h]
    by_cases valid : validEncoded p mode = true
    · rw [if_pos ⟨nonempty, valid, rfl⟩, if_pos valid]
    · rw [if_neg (fun facts => valid facts.2.1), if_neg valid]

theorem unescape_slash (p : GoString) :
    unescape (slash :: p) .path = (unescape p .path).map (slash :: ·) := by
  unfold unescape
  rw [Coding.decode.eq_def]
  simp only
  rw [if_neg (by decide), if_pos (by rfl)]
  rfl

theorem unescape_led (o : Option GoString) {d : GoString}
    (h : unescape (led slash o) .path = some d) :
    ∃ o', d = led slash o' ∧ (o'.isSome ↔ o.isSome) := by
  cases o with
  | none =>
    cases h
    exact ⟨none, rfl, Iff.rfl⟩
  | some p =>
    rw [led_some, unescape_slash] at h
    obtain ⟨e, _, rfl⟩ := Option.map_eq_some_iff.mp h
    exact ⟨some e, rfl, by simp⟩

theorem spelled_slash (p : GoString) : spelled .path (slash :: p) = slash :: spelled .path p := by
  have valid : validEncoded (slash :: p) .path = validEncoded p .path := by
    unfold validEncoded
    rw [List.all_cons, show ((ascii "!$&'()*+,;=:@[]%").contains slash ||
      !shouldEscape slash .path) = true from by decide, Bool.true_and]
  unfold spelled
  rw [valid, unescape_slash]
  split_ifs
  · rfl
  · cases unescape p .path <;> rfl

theorem spelled_led (o : Option GoString) :
    spelled .path (led slash o) = led slash (o.map (spelled .path)) := by
  cases o with
  | none => rfl
  | some p => exact spelled_slash p

/-- The parts that `String` writes for what was read from `w`. -/
def URL.written (u : URL) (w : Written) : Written where
  user := u.user.map fun i =>
    (escape i.username .userPassword, i.password.map (escape · .userPassword))
  host := escape u.host .host
  path := w.path.map (spelled .path)
  query := w.query
  fragment := (w.fragment.filter (· ≠ [])).map (spelled .fragment)

section Text

variable {isIPv6 : GoString → Bool} {scheme : GoString} {w : Written} {u : URL}

theorem userText_string (i : Userinfo) :
    Written.userText (escape i.username .userPassword, i.password.map (escape · .userPassword)) =
      i.string := by
  unfold Written.userText Userinfo.string
  cases i.password <;> simp

theorem authority_written : (u.written w).authority =
    closed atSign (u.user.map Userinfo.string) ++ escape u.host .host := by
  unfold Written.authority URL.written
  cases u.user with
  | none => rfl
  | some i => simp [userText_string]

theorem fragment_eq_nil_iff (r : Reads isIPv6 scheme w u) :
    u.fragment = [] ↔ w.fragment.getD [] = [] :=
  (Coding.decoded_of_decode r.fragment).eq_nil_iff

theorem path_eq_nil_iff (r : Reads isIPv6 scheme w u) : u.path = [] ↔ w.path = none := by
  refine (Coding.decoded_of_decode r.path).eq_nil_iff.trans ?_
  cases w.path <;> simp

theorem escapedPath_eq (r : Reads isIPv6 scheme w u) :
    u.escapedPath = led slash (w.path.map (spelled .path)) := by
  obtain ⟨o, ho, _⟩ := unescape_led w.path r.path
  have star : u.path ≠ ascii "*" := by
    rw [ho]
    cases o with
    | none => decide
    | some p =>
      intro eq
      exact absurd (List.cons.inj eq).1 (by decide)
  rw [URL.escapedPath, r.rawPath, if_neg star, rawOr_eq_spelled (by decide) r.path, spelled_led]

theorem escapedFragment_eq (r : Reads isIPv6 scheme w u) :
    u.escapedFragment = spelled .fragment (w.fragment.getD []) := by
  rw [URL.escapedFragment, r.rawFragment, rawOr_eq_spelled (by decide) r.fragment]

theorem queryText_eq (r : Reads isIPv6 scheme w u) :
    (if u.forceQuery = true ∨ u.rawQuery ≠ [] then question :: u.rawQuery else []) =
      led question w.query := by
  rw [r.forceQuery, r.rawQuery]
  match w.query with
  | none => simp
  | some [] => simp
  | some (_ :: _) => simp

theorem fragmentText_eq (r : Reads isIPv6 scheme w u) :
    (if u.fragment ≠ [] then hash :: u.escapedFragment else []) =
      led hash (u.written w).fragment := by
  rw [escapedFragment_eq r]
  simp only [ne_eq, fragment_eq_nil_iff r, URL.written]
  match w.fragment with
  | none => simp
  | some [] => simp [Option.filter]
  | some (_ :: _) => simp [Option.filter]

/-- What `String` writes before the query. -/
theorem stringPath_eq (r : Reads isIPv6 scheme w u) (ne : scheme ≠ []) :
    u.stringPath u.stringStart = led slash (w.path.map (spelled .path)) := by
  have started : u.stringStart ≠ [] := by
    unfold URL.stringStart
    rw [r.named, if_pos ne]
    simp
  have slashed : ¬ (u.escapedPath ≠ [] ∧ u.escapedPath.head? ≠ some slash ∧ u.host ≠ []) := by
    rw [escapedPath_eq r]
    cases w.path <;> simp
  unfold URL.stringPath
  simp only
  rw [if_neg slashed, if_neg (fun facts => started facts.1), escapedPath_eq r]

theorem string_eq (r : Reads isIPv6 scheme w u) (ne : scheme ≠ [])
    (some : u.host ≠ [] ∨ u.path ≠ [] ∨ u.user ≠ none) :
    u.string = start scheme ++ (u.written w).text := by
  have begun : u.stringStart = start scheme ++ (u.written w).authority := by
    unfold URL.stringStart
    rw [r.named, if_pos ne, if_pos ⟨.inl ne, by simp [r.omitHost]⟩, if_pos some, authority_written]
    simp [start]
  unfold URL.string
  rw [if_neg (by simp [r.opaquePart]), begun, ← begun, stringPath_eq r ne, begun, queryText_eq r,
    fragmentText_eq r]
  simp [Written.text, Written.front, Written.upToPath, URL.written]

/-- Only a URL with an authority, or at least a path, is written with two slashes. -/
theorem some_of_string (r : Reads isIPv6 scheme w u) (ne : scheme ≠ []) {t : GoString}
    (h : u.string = start scheme ++ t) : u.host ≠ [] ∨ u.path ≠ [] ∨ u.user ≠ none := by
  by_contra none
  push Not at none
  obtain ⟨host, path, user⟩ := none
  have begun : u.stringStart = scheme ++ [colon] := by
    unfold URL.stringStart
    rw [r.named, if_pos ne, if_pos ⟨.inl ne, by simp [r.omitHost]⟩, host, path, user]
    simp [escape, Coding.encode]
  unfold URL.string at h
  rw [if_neg (by simp [r.opaquePart]), stringPath_eq r ne, begun, queryText_eq r,
    fragmentText_eq r, (path_eq_nil_iff r).mp path] at h
  simp only [start, Option.map_none, led_none, List.append_nil, List.append_assoc,
    List.append_cancel_left_eq, List.cons_append, List.nil_append, List.cons.injEq, true_and] at h
  cases hq : w.query with
  | some q =>
    rw [hq, led_some, List.cons_append] at h
    exact absurd (List.cons.inj h).1 (by decide)
  | none =>
    rw [hq, led_none, List.nil_append] at h
    cases hf : (u.written w).fragment with
    | some f =>
      rw [hf, led_some] at h
      exact absurd (List.cons.inj h).1 (by decide)
    | none =>
      rw [hf, led_none] at h
      cases h

theorem notMem_spelled {mode : Encoding} (notForm : mode ≠ .queryComponent) {p d : GoString}
    (h : unescape p mode = some d) {c : UInt8} (escaped : shouldEscape c mode = true)
    (notListed : (ascii "!$&'()*+,;=:@[]%").contains c = false) : c ∉ spelled mode p := by
  intro mem
  have valid := List.all_eq_true.mp (validEncoded_spelled notForm h) c mem
  rw [escaped, notListed] at valid
  cases valid

/-- Every byte behind the slash is read as one behind the slash. -/
theorem unescape_path (r : Reads isIPv6 scheme w u) {p : GoString} (hp : w.path = some p) :
    ∃ d, unescape p .path = some d ∧ u.path = slash :: d := by
  have path := r.path
  rw [hp, led_some, unescape_slash] at path
  obtain ⟨d, hd, eq⟩ := Option.map_eq_some_iff.mp path
  exact ⟨d, hd, eq.symm⟩

theorem clean_written (sep : w.Separated) (r : Reads isIPv6 scheme w u) :
    (u.written w).Clean := by
  have clean := Written.separated_iff_clean.mp sep
  have user : ∀ c ∈ [slash, question, hash],
      shouldEscape c .userPassword = true ∧ c ≠ percent ∧ Hex.value c = none := by decide
  have host : ∀ c ∈ [atSign, slash, question, hash],
      shouldEscape c .host = true ∧ c ≠ percent ∧ Hex.value c = none := by decide
  refine ⟨?_, ?_, ?_, ?_, ?_⟩
  · intro v hv
    obtain ⟨i, _, rfl⟩ := Option.map_eq_some_iff.mp hv
    exact notMem_escape (by decide) (by decide) (by decide) (by decide) _
  · intro v hv c hc
    obtain ⟨i, _, rfl⟩ := Option.map_eq_some_iff.mp hv
    obtain ⟨escaped, ne, notDigit⟩ := user c hc
    refine ⟨notMem_escape (by decide) escaped ne notDigit _, fun q hq => ?_⟩
    obtain ⟨e, _, rfl⟩ := Option.map_eq_some_iff.mp hq
    exact notMem_escape (by decide) escaped ne notDigit _
  · intro c hc
    obtain ⟨escaped, ne, notDigit⟩ := host c hc
    exact notMem_escape (by decide) escaped ne notDigit _
  · intro p hp
    obtain ⟨o, ho, rfl⟩ := Option.map_eq_some_iff.mp hp
    obtain ⟨d, hd, _⟩ := unescape_path r ho
    exact ⟨notMem_spelled (by decide) hd (by decide) (by decide),
      notMem_spelled (by decide) hd (by decide) (by decide)⟩
  · exact clean.query

/-- Two URLs that are written alike have the same parts. -/
theorem eq_of_string {w' : Written} {u' : URL} (sep : w.Separated) (sep' : w'.Separated)
    (r : Reads isIPv6 scheme w u) (r' : Reads isIPv6 scheme w' u') (ne : scheme ≠ [])
    (host : u.host ≠ []) (h : u'.string = u.string) : u'.written w' = u.written w := by
  have text := string_eq r ne (.inl host)
  have some := some_of_string r' ne (h.trans text)
  have text' := string_eq r' ne some
  refine Written.eq_of_text (Written.separated_iff_clean.mpr (clean_written sep' r'))
    (Written.separated_iff_clean.mpr (clean_written sep r)) ?_
  exact List.append_cancel_left (text'.symm.trans (h.trans text))

end Text

end NetUrl
