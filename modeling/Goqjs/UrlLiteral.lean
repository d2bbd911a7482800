import Goqjs.UrlParts

/-!
# URLs that stand for themselves

Which texts have decoded parts that, put together, are read back to the same parts and
written as before.
-/

namespace NetUrl

open Qjs Separators Percent Quickjs

/-- The part decodes to a text without percent signs that has the property. -/
def Plain (mode : Encoding) (ok : GoString → Prop) (part : GoString) : Prop :=
  ∃ d, unescape part mode = some d ∧ percent ∉ d ∧ ok d

/-- When the parts of a text can be put together from what they decode to. -/
structure Reassembles (w : Written) : Prop where
  name : ∀ v ∈ w.user, Plain .userPassword (fun d => validUserinfo d = true ∧ colon ∉ d) v.1
  password : ∀ v ∈ w.user, ∀ q ∈ v.2, Plain .userPassword (fun d => validUserinfo d = true) q
  present : ∀ v ∈ w.user, v ≠ ([], none) ∧ v.2 ≠ some []
  host : Plain .host WellFormed w.host
  path : Plain .path (fun d => question ∉ d ∧ hash ∉ d ∧ stringContainsCTLByte d = false ∧
    WellFormed d ∧ spelled .path d = spelled .path (led slash w.path)) (led slash w.path)
  query : w.query ≠ some []
  fragment : Plain .fragment (fun d => WellFormed d ∧
    spelled .fragment d = spelled .fragment (w.fragment.getD [])) (w.fragment.getD [])

variable {isIPv6 : GoString → Bool} {scheme : GoString} {w : Written} {u : URL}

theorem ctl_append (s t : GoString) : stringContainsCTLByte (s ++ t) =
    (stringContainsCTLByte s || stringContainsCTLByte t) := List.any_append

theorem ctl_led {c : UInt8} (h : (c < 0x20 || c = 0x7F) = false) (o : Option GoString) :
    stringContainsCTLByte (led c o) = stringContainsCTLByte (o.getD []) := by
  cases o with
  | none => rfl
  | some s =>
    rw [led_some, stringContainsCTLByte, List.any_cons, h, Bool.false_or]
    rfl

theorem ctl_closed {c : UInt8} (h : (c < 0x20 || c = 0x7F) = false) (o : Option GoString) :
    stringContainsCTLByte (closed c o) = stringContainsCTLByte (o.getD []) := by
  cases o with
  | none => rfl
  | some s =>
    have one : stringContainsCTLByte [c] = false := by
      simpa [stringContainsCTLByte] using h
    rw [closed_some, ctl_append, one, Bool.or_false]
    rfl

theorem ctl_front (w : Written) : stringContainsCTLByte w.front =
    (stringContainsCTLByte ((w.user.map Written.userText).getD []) || stringContainsCTLByte w.host ||
      stringContainsCTLByte (w.path.getD []) || stringContainsCTLByte (w.query.getD [])) := by
  rw [Written.front, Written.upToPath, Written.authority, ctl_append, ctl_append, ctl_append,
    ctl_closed (by decide), ctl_led (by decide), ctl_led (by decide)]

/-- A property of all bytes that is checked byte by byte. -/
theorem forall_byte {P : UInt8 → Prop} (h : ∀ n : Fin 256, P (.ofNat n)) (c : UInt8) : P c := by
  have one := h ⟨c.toNat, c.toNat_lt⟩
  rwa [UInt8.ofNat_toNat] at one

theorem userinfo_byte (c : UInt8) (h : validUserinfo [c] = true) :
    c.toNat < 0x80 ∧ stringContainsCTLByte [c] = false ∧ c ∉ [slash, question, hash] := by
  refine forall_byte (P := fun c => validUserinfo [c] = true →
    c.toNat < 0x80 ∧ stringContainsCTLByte [c] = false ∧ c ∉ [slash, question, hash]) ?_ c h
  decide +kernel

theorem hostByte_facts (c : UInt8) (h : HostByte c) :
    stringContainsCTLByte [c] = false ∧ c ∉ [atSign, slash, question, hash] := by
  refine forall_byte (P := fun c => HostByte c →
    stringContainsCTLByte [c] = false ∧ c ∉ [atSign, slash, question, hash]) ?_ c h
  unfold HostByte
  decide +kernel

theorem ctl_of_forall {s : GoString} (h : ∀ c ∈ s, stringContainsCTLByte [c] = false) :
    stringContainsCTLByte s = false := by
  refine List.any_eq_false.mpr fun c hc => ?_
  simpa [stringContainsCTLByte] using h c hc

theorem validUserinfo_mem {s : GoString} (h : validUserinfo s = true) {c : UInt8} (hc : c ∈ s) :
    validUserinfo [c] = true := by
  simpa [validUserinfo] using List.all_eq_true.mp h c hc

theorem start_ctl (web : IsWeb scheme) : stringContainsCTLByte (start scheme) = false := by
  rcases web with rfl | rfl <;> decide

theorem web_ascii (web : IsWeb scheme) : ∀ c ∈ scheme, c.toNat < 0x80 := by
  rcases web with rfl | rfl <;> decide

theorem web_ne (web : IsWeb scheme) : scheme ≠ [] := by
  rcases web with rfl | rfl <;> decide

theorem web_lower (web : IsWeb scheme) : toLower scheme = scheme := by
  rcases web with rfl | rfl <;> decide

theorem unescape_self {mode : Encoding} (free : mode.Free) {d : GoString} (h : percent ∉ d) :
    unescape d mode = some d :=
  Coding.decode_of_decoded
    (Coding.decoded_self (notForm_of_free free) h fun c _ => stand_of_free free c)

/-- User information that stands for itself. -/
structure UserFacts (written : Option (GoString × Option GoString)) : Prop where
  colon : ∀ v ∈ written, colon ∉ v.1
  valid : ∀ v ∈ written, validUserinfo v.1 = true ∧ ∀ q ∈ v.2, validUserinfo q = true

theorem user_again (c : Reassembles w) (r : ReadsUser w.user u.user) :
    ReadsUser u.parts.user u.user ∧ UserFacts u.parts.user := by
  have free : Encoding.Free .userPassword := .inr (.inl rfl)
  generalize hw : w.user = written at r
  generalize hu : u.user = user at r
  cases r with
  | absent =>
    have parts : u.parts.user = none := by
      simp [URL.parts, URL.username, URL.password, hu]
    rw [parts]
    exact ⟨.absent, ⟨by simp, by simp⟩⟩
  | @name n d valid name =>
    obtain ⟨d', hd, noPercent, validName, noColon⟩ := c.name _ hw
    obtain rfl : d' = d := Option.some.inj (hd.symm.trans name)
    have some : d' ≠ [] := by
      rintro rfl
      have empty := (Coding.decoded_of_decode name).eq_nil_iff.mp rfl
      exact (c.present _ hw).1 (by rw [empty])
    have parts : u.parts.user = .some (d', none) := by
      simp [URL.parts, URL.username, URL.password, hu, some, nonempty]
    rw [parts]
    refine ⟨.name validName (unescape_self free noPercent), ⟨?_, ?_⟩⟩
    · rintro v ⟨⟩
      exact noColon
    · rintro v ⟨⟩
      exact ⟨validName, by simp⟩
  | @password n d q e valid name password =>
    obtain ⟨d', hd, noPercent, validName, noColon⟩ := c.name _ hw
    obtain rfl : d' = d := Option.some.inj (hd.symm.trans name)
    obtain ⟨e', he, noPercent', validPassword⟩ := c.password _ hw q rfl
    obtain rfl : e' = e := Option.some.inj (he.symm.trans password)
    have some : e' ≠ [] := by
      rintro rfl
      have empty := (Coding.decoded_of_decode password).eq_nil_iff.mp rfl
      exact (c.present _ hw).2 (by rw [empty])
    have parts : u.parts.user = .some (d', .some e') := by
      simp [URL.parts, URL.username, URL.password, hu, some, nonempty]
    rw [parts]
    refine ⟨.password ?_ (unescape_self free noPercent) (unescape_self free noPercent'), ⟨?_, ?_⟩⟩
    · rw [validUserinfo, List.all_append, List.all_cons]
      simp only [validUserinfo] at validName validPassword
      rw [validName, validPassword]
      decide
    · rintro v ⟨⟩
      exact noColon
    · rintro v ⟨⟩
      refine ⟨validName, ?_⟩
      rintro q ⟨⟩
      exact validPassword

theorem UserFacts.ascii {written : Option (GoString × Option GoString)} (f : UserFacts written)
    {v : GoString × Option GoString} (hv : v ∈ written) :
    viaString v.1 = v.1 ∧ v.2.map viaString = v.2 := by
  obtain ⟨name, password⟩ := f.valid v hv
  have fixed {s : GoString} (valid : validUserinfo s = true) : viaString s = s :=
    Written.viaString_ascii fun c hc => (userinfo_byte c (validUserinfo_mem valid hc)).1
  refine ⟨fixed name, ?_⟩
  cases hq : v.2 with
  | none => rfl
  | some q => exact congrArg some (fixed (password q hq))

theorem UserFacts.bytes {written : Option (GoString × Option GoString)} (f : UserFacts written)
    {v : GoString × Option GoString} (hv : v ∈ written) {s : GoString} (hs : s = v.1 ∨ s ∈ v.2)
    {c : UInt8} (hc : c ∈ s) :
    stringContainsCTLByte [c] = false ∧ c ∉ [slash, question, hash] := by
  obtain ⟨name, password⟩ := f.valid v hv
  have valid : validUserinfo s = true := by
    rcases hs with rfl | hs
    · exact name
    · exact password s hs
  exact (userinfo_byte c (validUserinfo_mem valid hc)).2

theorem UserFacts.ctl {written : Option (GoString × Option GoString)} (f : UserFacts written) :
    stringContainsCTLByte ((written.map Written.userText).getD []) = false := by
  cases hw : written with
  | none => rfl
  | some v =>
    subst hw
    have name : stringContainsCTLByte v.1 = false :=
      ctl_of_forall fun c hc => (f.bytes rfl (.inl rfl) hc).1
    have password : stringContainsCTLByte (v.2.getD []) = false := by
      cases hq : v.2 with
      | none => rfl
      | some q => exact ctl_of_forall fun c hc => (f.bytes rfl (.inr hq) hc).1
    rw [Option.map_some, Option.getD_some, Written.userText, ctl_append, ctl_led (by decide), name,
      password]
    rfl

/-- What is known of the decoded parts under the condition. -/
structure PartFacts (isIPv6 : GoString → Bool) (scheme : GoString) (w : Written) (u : URL) :
    Prop where
  user : UserFacts u.parts.user
  host : ReadsHost isIPv6 scheme u.host u.host
  wellFormedHost : viaString u.host = u.host
  path : unescape u.path .path = some u.path
  clean : question ∉ u.path ∧ hash ∉ u.path ∧ stringContainsCTLByte u.path = false
  wellFormedPath : viaString u.path = u.path
  pathSpelled : spelled .path u.path = spelled .path (led slash w.path)
  query : u.parts.query = w.query
  fragment : unescape u.fragment .fragment = some u.fragment
  wellFormedFragment : viaString u.fragment = u.fragment
  fragmentSpelled : spelled .fragment u.fragment = spelled .fragment (w.fragment.getD [])

theorem partFacts (web : IsWeb scheme) (r : Reads isIPv6 scheme w u) (c : Reassembles w) :
    PartFacts isIPv6 scheme w u := by
  have hostRead := parseHost_eq_some_iff.mp r.host
  obtain ⟨h, hh, noPercentHost, hostFormed⟩ := c.host
  have host : u.host = h := hostRead.of_unescape (Coding.decoded_of_decode hh) noPercentHost
  subst host
  obtain ⟨p, hp, noPercentPath, noQuestion, noHash, ctl, pathFormed, pathSpelled⟩ := c.path
  obtain rfl : p = u.path := Option.some.inj (hp.symm.trans r.path)
  obtain ⟨f, hf, noPercentFragment, fragmentFormed, fragmentSpelled⟩ := c.fragment
  obtain rfl : f = u.fragment := Option.some.inj (hf.symm.trans r.fragment)
  have query : u.parts.query = w.query := by
    change nonempty u.rawQuery = w.query
    rw [r.rawQuery]
    cases hq : w.query with
    | none => rfl
    | some q =>
      have some : q ≠ [] := by
        rintro rfl
        exact c.query hq
      simp [nonempty, some]
  exact {
    user := (user_again c r.user).2
    host := hostRead.again web noPercentHost
    wellFormedHost := viaString_eq_iff.mpr hostFormed
    path := unescape_self (.inl rfl) noPercentPath
    clean := ⟨noQuestion, noHash, ctl⟩
    wellFormedPath := viaString_eq_iff.mpr pathFormed
    pathSpelled
    query
    fragment := unescape_self (.inr (.inr rfl)) noPercentFragment
    wellFormedFragment := viaString_eq_iff.mpr fragmentFormed
    fragmentSpelled }

theorem clean_parts (sep : w.Separated) (r : Reads isIPv6 scheme w u)
    (f : PartFacts isIPv6 scheme w u) : u.parts.Clean := by
  have path := led_parts_path r
  refine ⟨f.user.colon, fun v hv c hc => ⟨fun mem => ?_, fun q hq mem => ?_⟩, fun c hc mem => ?_,
    fun p hp => ?_, fun q hq => ?_⟩
  · exact (f.user.bytes hv (.inl rfl) mem).2 hc
  · exact (f.user.bytes hv (.inr hq) mem).2 hc
  · exact (hostByte_facts c (f.host.bytes c mem)).2 hc
  · rw [show u.parts.path = some p from hp, led_some] at path
    have clean := f.clean
    rw [← path] at clean
    exact ⟨fun mem => clean.1 (List.mem_cons_of_mem _ mem),
      fun mem => clean.2.1 (List.mem_cons_of_mem _ mem)⟩
  · rw [f.query] at hq
    exact (Written.separated_iff_clean.mp sep).query q hq

theorem viaString_slash (o : Option GoString) :
    viaString (led slash o) = led slash (o.map viaString) :=
  viaString_led (by decide) [] o

/-- The parts come back from strings of the engine. -/
theorem map_parts (r : Reads isIPv6 scheme w u) (f : PartFacts isIPv6 scheme w u)
    (query : w.query.map viaString = w.query) : u.parts.map viaString = u.parts := by
  have path := led_parts_path r
  have user : u.parts.user.map (fun v => (viaString v.1, v.2.map viaString)) = u.parts.user := by
    cases hu : u.parts.user with
    | none => rfl
    | some v =>
      obtain ⟨name, password⟩ := f.user.ascii hu
      simp [name, password]
  have paths : u.parts.path.map viaString = u.parts.path := by
    have whole := viaString_slash u.parts.path
    rw [path, f.wellFormedPath] at whole
    exact (led_injective (path.trans whole)).symm
  have fragment : u.parts.fragment.map viaString = u.parts.fragment := by
    change (nonempty u.fragment).map viaString = nonempty u.fragment
    unfold nonempty
    split_ifs
    · rfl
    · rw [Option.map_some, f.wellFormedFragment]
  rw [Written.map, user, paths, f.query, query, fragment]
  exact congrArg (fun h => { u.parts with host := h, query := w.query }) f.wellFormedHost |>.trans
    (by rw [← f.query])

theorem ctl_parts (web : IsWeb scheme) (r : Reads isIPv6 scheme w u)
    (f : PartFacts isIPv6 scheme w u) (query : stringContainsCTLByte (w.query.getD []) = false) :
    stringContainsCTLByte (start scheme ++ u.parts.front) = false := by
  have path := f.clean.2.2
  have host : stringContainsCTLByte u.host = false :=
    ctl_of_forall fun c hc => (hostByte_facts c (f.host.bytes c hc)).1
  rw [← led_parts_path r, ctl_led (by decide)] at path
  rw [ctl_append, start_ctl web, ctl_front, f.user.ctl, path, f.query, query]
  change (false || (false || stringContainsCTLByte u.host || false || false)) = false
  rw [host]
  rfl

/-- The URL that the decoded parts are read to: only its hints can differ. -/
def URL.reread (u : URL) : URL :=
  { u with
    rawPath := if u.path = escape u.path .path then [] else u.path
    rawFragment := if u.fragment = escape u.fragment .fragment then [] else u.fragment }

theorem reads_parts (web : IsWeb scheme) (r : Reads isIPv6 scheme w u) (c : Reassembles w) :
    Reads isIPv6 scheme u.parts u.reread := by
  have f := partFacts web r c
  have path := led_parts_path r
  have query : u.rawQuery = u.parts.query.getD [] := (getD_nonempty u.rawQuery).symm
  have fragment : u.parts.fragment.getD [] = u.fragment := getD_nonempty u.fragment
  exact {
    named := r.named
    opaquePart := r.opaquePart
    omitHost := r.omitHost
    user := (user_again c r.user).1
    host := parseHost_eq_some_iff.mpr f.host
    path := by
      rw [path]
      exact f.path
    rawPath := by
      rw [path]
      rfl
    forceQuery := by
      rw [f.query]
      exact r.forceQuery
    rawQuery := query
    fragment := by
      rw [fragment]
      exact f.fragment
    rawFragment := by
      rw [fragment]
      rfl }

/-- What `String` makes of the fragment, with nothing for none. -/
theorem written_fragment (u : URL) (w : Written) :
    (u.written w).fragment = nonempty (spelled .fragment (w.fragment.getD [])) := by
  have empty {p : GoString} (h : spelled .fragment p = []) : p = [] := by
    unfold spelled at h
    split_ifs at h with valid
    · exact h
    · split at h
      · rename_i d hd
        have none := Coding.encode_eq_nil_iff.mp h
        rw [none] at hd
        exact (Coding.decoded_of_decode hd).eq_nil_iff.mp rfl
      · exact h
  match hf : w.fragment with
  | none => simp [URL.written, hf, nonempty, spelled, validEncoded]
  | some [] => simp [URL.written, hf, nonempty, spelled, validEncoded]
  | some (a :: p) =>
    have some : spelled .fragment (a :: p) ≠ [] := fun h => absurd (empty h) (by simp)
    simp [URL.written, hf, nonempty, some, Option.filter]

/-- Decoded parts that stand for themselves are written as before. -/
theorem string_reread (web : IsWeb scheme) (r : Reads isIPv6 scheme w u) (c : Reassembles w)
    (host : u.host ≠ []) : u.reread.string = u.string := by
  have f := partFacts web r c
  have r' := reads_parts web r c
  have path : u.parts.path.map (spelled .path) = w.path.map (spelled .path) := by
    apply led_injective (c := slash)
    rw [← spelled_led, ← spelled_led, led_parts_path r, f.pathSpelled]
  have fragment : (u.reread.written u.parts).fragment = (u.written w).fragment := by
    rw [written_fragment, written_fragment]
    change nonempty (spelled .fragment ((nonempty u.fragment).getD [])) = _
    rw [getD_nonempty, f.fragmentSpelled]
  have written : u.reread.written u.parts = u.written w := by
    have front : u.reread.written u.parts = { u.written w with
        path := u.parts.path.map (spelled .path), query := u.parts.query,
        fragment := (u.reread.written u.parts).fragment } := rfl
    rw [front, path, f.query, fragment]
    rfl
  rw [string_eq r' (web_ne web) (.inl host), string_eq r (web_ne web) (.inl host), written]

theorem unescape_writtenPath (r : Reads isIPv6 scheme w u) :
    unescape (led slash (u.written w).path) .path = some u.path := by
  change unescape (led slash (w.path.map (spelled .path))) .path = some u.path
  rw [← spelled_led]
  exact unescape_spelled (.inl rfl) r.path

theorem unescape_writtenFragment (r : Reads isIPv6 scheme w u) :
    unescape ((u.written w).fragment.getD []) .fragment = some u.fragment := by
  rw [written_fragment, getD_nonempty]
  exact unescape_spelled (.inr (.inr rfl)) r.fragment

theorem user_injective {a b : Option Userinfo}
    (h : a.map (fun i => (escape i.username .userPassword,
        i.password.map (escape · .userPassword))) =
      b.map (fun i => (escape i.username .userPassword,
        i.password.map (escape · .userPassword)))) : a = b := by
  refine Option.map_injective ?_ h
  rintro ⟨n, p⟩ ⟨m, q⟩ eq
  obtain ⟨name, password⟩ := Prod.mk.inj eq
  have names := escape_injective (by decide) name
  have passwords := Option.map_injective (fun s t => escape_injective (by decide)) password
  simp only at names passwords
  rw [names, passwords]

/-- Two URLs that are written alike have the same decoded parts. -/
theorem parts_of_written {w' : Written} {u' : URL} (r : Reads isIPv6 scheme w u)
    (r' : Reads isIPv6 scheme w' u') (h : u'.written w' = u.written w) :
    u'.user = u.user ∧ u'.host = u.host ∧ u'.path = u.path ∧ w'.query = w.query ∧
      u'.fragment = u.fragment := by
  refine ⟨user_injective (congrArg Written.user h),
    escape_injective (by decide) (congrArg Written.host h), ?_,
    show (u'.written w').query = (u.written w).query by rw [h], ?_⟩
  · have path := unescape_writtenPath r'
    rw [h, unescape_writtenPath r] at path
    exact (Option.some.inj path).symm
  · have fragment := unescape_writtenFragment r'
    rw [h, unescape_writtenFragment r] at fragment
    exact (Option.some.inj fragment).symm

/-- A text that decodes to itself has no percent sign. -/
theorem noPercent_of_self {mode : Encoding} (free : mode.Free) {d : GoString}
    (h : unescape d mode = some d) : percent ∉ d := by
  have bound := decoded_weight free h
  exact List.count_eq_zero.mp (by omega)

theorem name_of_user {w' : Written} (sep : w'.Separated) (parts : w' = u.parts)
    (r : ReadsUser w.user u.user) (r' : ReadsUser w'.user u.user) :
    ∀ v ∈ w.user, Plain .userPassword (fun d => validUserinfo d = true ∧ colon ∉ d) v.1 ∧
      (∀ q ∈ v.2, Plain .userPassword (fun d => validUserinfo d = true) q) ∧
      v ≠ ([], none) ∧ v.2 ≠ some [] := by
  have free : Encoding.Free .userPassword := .inr (.inl rfl)
  have noColon := sep.user
  rw [parts] at noColon r'
  have empty {s : GoString} (h : unescape [] .userPassword = some s) : s = [] :=
    (Option.some.inj h).symm
  generalize hw : w.user = written at r
  generalize hu : u.user = user at r r'
  cases r with
  | absent => simp
  | @name n d valid name =>
    have fields : u.parts.user = if d = [] then none else some (d, none) := by
      by_cases none : d = [] <;>
        simp [URL.parts, URL.username, URL.password, hu, none, nonempty]
    rw [fields] at r' noColon
    split_ifs at r' noColon with none
    · cases r'
    · cases r' with
      | name valid' name' =>
        rintro v ⟨⟩
        refine ⟨⟨d, name, noPercent_of_self free name', valid', noColon _ rfl⟩, by simp, ?_,
          by simp⟩
        intro eq
        obtain ⟨rfl, _⟩ := Prod.mk.inj eq
        exact none (empty name)
  | @password n d q e valid name password =>
    have fields : u.parts.user =
        if e = [] then if d = [] then none else some (d, none) else some (d, some e) := by
      by_cases noPassword : e = [] <;> by_cases noName : d = [] <;>
        simp [URL.parts, URL.username, URL.password, hu, noPassword, noName, nonempty]
    rw [fields] at r' noColon
    split_ifs at r' noColon with noPassword noName
    · cases r'
    · cases r'
    · cases r' with
      | password valid' name' password' =>
        rintro v ⟨⟩
        simp only [validUserinfo, List.all_append, List.all_cons, Bool.and_eq_true] at valid'
        refine ⟨⟨d, name, noPercent_of_self free name', valid'.1, noColon _ rfl⟩, ?_, by simp, ?_⟩
        · rintro p ⟨⟩
          exact ⟨e, password, noPercent_of_self free password', valid'.2.2⟩
        · intro eq
          obtain rfl := Option.some.inj eq
          exact noPassword (empty password)

section Formed

variable {v : Written} (formed : v.map viaString = v)
include formed

theorem wellFormed_host : WellFormed v.host :=
  viaString_eq_iff.mp (congrArg Written.host formed)

theorem wellFormed_path : WellFormed (led slash v.path) := by
  refine viaString_eq_iff.mp ?_
  have eq := congrArg (fun w => led slash w.path) formed
  exact (viaString_slash v.path).trans eq

theorem wellFormed_fragment : WellFormed (v.fragment.getD []) := by
  refine viaString_eq_iff.mp ?_
  have eq := congrArg (fun w => w.fragment.getD []) formed
  change (v.fragment.map viaString).getD [] = v.fragment.getD [] at eq
  cases hf : v.fragment with
  | none => rfl
  | some f =>
    rw [hf] at eq
    exact eq

end Formed

theorem clean_path {v : Written} (clean : v.Clean) :
    question ∉ led slash v.path ∧ hash ∉ led slash v.path := by
  rw [Written.mem_led (by decide), Written.mem_led (by decide)]
  constructor
  · rintro ⟨p, hp, mem⟩
    exact (clean.path p hp).1 mem
  · rintro ⟨p, hp, mem⟩
    exact (clean.path p hp).2 mem

theorem ctl_path {v : Written} (ctl : stringContainsCTLByte (start scheme ++ v.front) = false) :
    stringContainsCTLByte (led slash v.path) = false := by
  rw [ctl_append, ctl_front] at ctl
  simp only [Bool.or_eq_false_iff] at ctl
  rw [ctl_led (by decide)]
  exact ctl.2.1.2

/-- The text of the decoded parts, when what is read from it is written as before. -/
theorem reassembles_of_string {w' : Written} {u' : URL} (web : IsWeb scheme) (sep : w.Separated)
    (sep' : w'.Separated) (r : Reads isIPv6 scheme w u) (r' : Reads isIPv6 scheme w' u')
    (host : u.host ≠ []) (text : start scheme ++ w'.text = viaString (start scheme ++ u.parts.text))
    (ctl : stringContainsCTLByte (start scheme ++ w'.front) = false)
    (same : u'.string = u.string) : Reassembles w := by
  have written := eq_of_string sep sep' r r' (web_ne web) host same
  obtain ⟨user, hostEq, path, query, fragment⟩ := parts_of_written r r' written
  have rawQuery : u'.rawQuery = u.rawQuery := by
    rw [r'.rawQuery, query, r.rawQuery]
  have parts' : u'.parts = u.parts := by
    unfold URL.parts URL.username URL.password
    rw [user, hostEq, path, fragment, rawQuery]
  have weight := congrArg Coding.weight text
  rw [weight_viaString, Coding.weight_append, Coding.weight_append, ← parts'] at weight
  have parts : w' = u.parts := parts' ▸ parts_weight r' (by omega)
  have clean := Written.separated_iff_clean.mp sep'
  have formed : w'.map viaString = w' := by
    refine Written.map_viaString clean (web_ascii web) ?_
    rw [parts] at text ⊢
    exact text.symm
  have pathText : led slash w'.path = u.path := by
    rw [parts]
    exact led_parts_path r
  have fragmentText : w'.fragment.getD [] = u.fragment := by
    rw [parts]
    exact getD_nonempty u.fragment
  have hostText : w'.host = u.host := by
    rw [parts]
    rfl
  have users := name_of_user sep' parts r.user (user ▸ r'.user)
  refine ⟨fun v hv => (users v hv).1, fun v hv => (users v hv).2.1, fun v hv => (users v hv).2.2,
    ?_, ?_, ?_, ?_⟩
  · have hostRead := parseHost_eq_some_iff.mp r'.host
    rw [hostText, hostEq] at hostRead
    have noPercent : percent ∉ u.host := by
      have bound := hostRead.weight_le
      exact List.count_eq_zero.mp (by omega)
    have read := (parseHost_eq_some_iff.mp r.host).unescape noPercent
    exact ⟨u.host, Coding.decode_of_decoded read, noPercent, hostText ▸ wellFormed_host formed⟩
  · have self := r'.path
    have apart := clean_path clean
    have noControl := ctl_path ctl
    have wellFormed := wellFormed_path formed
    rw [pathText] at self apart noControl wellFormed
    rw [path] at self
    refine ⟨u.path, r.path, noPercent_of_self (.inl rfl) self, apart.1, apart.2, noControl,
      wellFormed, ?_⟩
    have eq := congrArg (fun w => led slash w.path) written
    change led slash (w'.path.map (spelled .path)) = led slash (w.path.map (spelled .path)) at eq
    rwa [← spelled_led, ← spelled_led, pathText] at eq
  · rw [← query, parts]
    change nonempty u.rawQuery ≠ some []
    unfold nonempty
    split_ifs with empty
    · simp
    · simpa using empty
  · have self := r'.fragment
    rw [fragmentText, fragment] at self
    refine ⟨u.fragment, r.fragment, noPercent_of_self (.inr (.inr rfl)) self,
      fragmentText ▸ wellFormed_fragment formed, ?_⟩
    have eq := congrArg (fun w => w.fragment.getD []) written
    simp only [written_fragment, getD_nonempty, fragmentText] at eq
    exact eq

end NetUrl
