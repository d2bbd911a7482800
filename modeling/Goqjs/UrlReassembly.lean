import Goqjs.UrlLiteral
import Goqjs.UrlObject
import Goqjs.TextRoundTrip

/-!
# Putting a URL object together again

A script joins the properties of a URL object with the separators between them. The
object shows its path, fragment and user information decoded, so the text it gets can
be another URL.
-/

namespace NetUrl

open Qjs Separators Percent Quickjs

theorem plain_ascii {c : UInt8} {mode : Encoding} (h : shouldEscape c mode = false) :
    c.toNat < 0x80 := by
  by_contra high
  rw [escaped_high (by omega) mode] at h
  cases h

theorem escape_ascii {s : GoString} {mode : Encoding} : ∀ c ∈ escape s mode, c.toNat < 0x80 := by
  intro c hc
  rcases Coding.mem_encode hc with rfl | digit | ⟨_, rfl⟩ | ⟨_, plain⟩
  · decide
  · exact plain_ascii (digit_of_value digit mode)
  · decide
  · exact plain_ascii plain

theorem spelled_ascii {mode : Encoding} (notForm : mode ≠ .queryComponent) {p d : GoString}
    (h : unescape p mode = some d) : ∀ c ∈ spelled mode p, c.toNat < 0x80 := by
  intro c hc
  have valid := List.all_eq_true.mp (validEncoded_spelled notForm h) c hc
  rcases Bool.or_eq_true_iff.mp valid with listed | plain
  · have low : ∀ c ∈ ascii "!$&'()*+,;=:@[]%", c.toNat < 0x80 := by decide
    exact low c (by simpa using listed)
  · exact plain_ascii (by simpa using plain)

theorem closed_ascii {c : UInt8} (hc : c.toNat < 0x80) {o : Option GoString}
    (h : ∀ s ∈ o, ∀ d ∈ s, d.toNat < 0x80) : ∀ d ∈ closed c o, d.toNat < 0x80 := by
  cases o with
  | none => simp
  | some s =>
    intro d hd
    rcases List.mem_append.mp hd with hd | hd
    · exact h s rfl d hd
    · exact List.mem_singleton.mp hd ▸ hc

variable {isIPv6 : GoString → Bool} {scheme : GoString} {w : Written} {u : URL}

theorem userinfo_ascii (i : Userinfo) : ∀ c ∈ i.string, c.toNat < 0x80 := by
  intro c hc
  rw [← userText_string, Written.userText] at hc
  rcases List.mem_append.mp hc with hc | hc
  · exact escape_ascii c hc
  · cases hp : i.password with
    | none =>
      rw [hp] at hc
      cases hc
    | some p =>
      rw [hp] at hc
      rcases List.mem_cons.mp hc with rfl | hc
      · decide
      · exact escape_ascii c hc

theorem stringStart_ascii (web : IsWeb u.scheme) : ∀ c ∈ u.stringStart, c.toNat < 0x80 := by
  have user : ∀ s ∈ u.user.map Userinfo.string, ∀ d ∈ s, d.toNat < 0x80 := by
    intro s hs
    obtain ⟨i, _, rfl⟩ := Option.map_eq_some_iff.mp hs
    exact userinfo_ascii i
  intro c hc
  unfold URL.stringStart at hc
  rw [if_pos (web_ne web)] at hc
  rcases List.mem_append.mp hc with hc | hc
  · rcases List.mem_append.mp hc with hc | hc
    · exact web_ascii web c hc
    · exact List.mem_singleton.mp hc ▸ by decide
  · split_ifs at hc with some none
    · rcases List.mem_append.mp hc with hc | hc
      · rcases List.mem_append.mp hc with hc | hc
        · simp only [List.mem_cons, List.not_mem_nil, or_false, or_self] at hc
          exact hc ▸ by decide
        · exact closed_ascii (by decide) user c hc
      · exact escape_ascii c hc
    · rcases List.mem_append.mp hc with hc | hc
      · exact closed_ascii (by decide) user c hc
      · exact escape_ascii c hc
    · cases hc

theorem path_ascii (r : Reads isIPv6 scheme w u) :
    ∀ c ∈ led slash (w.path.map (spelled .path)), c.toNat < 0x80 := by
  rw [← spelled_led]
  exact spelled_ascii (by decide) r.path

theorem viaString_string (web : IsWeb scheme) (r : Reads isIPv6 scheme w u)
    (query : w.query.map viaString = w.query) : viaString u.string = u.string := by
  have start := stringStart_ascii (r.named ▸ web)
  have fragment : (u.written w).fragment.map viaString = (u.written w).fragment := by
    rw [written_fragment, nonempty]
    split_ifs
    · rfl
    · rw [Option.map_some, Written.viaString_ascii (spelled_ascii (by decide) r.fragment)]
  unfold URL.string
  rw [if_neg (by simp [r.opaquePart]), queryText_eq r, fragmentText_eq r,
    stringPath_eq r (web_ne web), viaString_led (by decide), viaString_led (by decide), query,
    fragment, Written.viaString_ascii]
  intro c hc
  rcases List.mem_append.mp hc with hc | hc
  · exact start c hc
  · exact path_ascii r c hc

/-- What a string of the engine is read to. -/
theorem reads_of_string {s : Str} (h : Parse isIPv6 (toCStringLen s) = some u)
    (web : IsWeb u.scheme) (host : u.host ≠ []) :
    ∃ (start' : GoString) (w : Written), toCStringLen s = start start' ++ w.text ∧
      (∀ c ∈ start', isLetter c = true) ∧ w.Separated ∧ Reads isIPv6 u.scheme w u ∧
      w.query.map viaString = w.query ∧ stringContainsCTLByte (w.query.getD []) = false := by
  obtain ⟨start', w, text, sep, ne, lower⟩ := exists_text h web host
  have letters := isWeb_letters (lower ▸ web)
  rw [text] at h
  obtain ⟨ctl, r⟩ := (Parse_eq_some_iff sep ne letters).mp h
  rw [lower] at r
  have formed : w.map viaString = w := by
    refine Written.map_viaString (Written.separated_iff_clean.mp sep)
      (fun c hc => ascii_of_letter (.inl (letters c hc))) ?_
    rw [← text]
    exact viaString_toCStringLen s
  rw [ctl_append, ctl_front] at ctl
  simp only [Bool.or_eq_false_iff] at ctl
  exact ⟨start', w, text, letters, sep, r, congrArg Written.query formed, ctl.2.2⟩

end NetUrl

namespace Polyfill

open Quickjs Qjs NetUrl Separators

namespace UrlObject

variable (o : UrlObject)

/-- The user information built from the two properties, with its `@`, when there is one. -/
def userInfo : Str :=
  if o.username.units = [] ∧ o.password.units = [] then js ""
  else
    (if o.password.units = [] then o.username
      else (o.username.concat (js ":")).concat o.password).concat (js "@")

/-- `o.protocol + '//' + userInfo + o.host + o.pathname + o.search + o.hash`. -/
def reassembled : Str :=
  (((((o.protocol.concat (js "//")).concat o.userInfo).concat o.host).concat o.pathname).concat
    o.search).concat o.hash

end UrlObject

theorem units_userInfo (u : NetUrl.URL) : (urlObject u).userInfo.units =
    (newStringLen (closed atSign (u.parts.user.map Written.userText))).units := by
  unfold UrlObject.userInfo
  simp only [urlObject, units_eq_nil_iff]
  by_cases none : u.username = [] ∧ u.password = []
  · rw [if_pos none, URL.parts]
    simp only [if_pos none, Option.map_none, closed_none]
    rfl
  · have user : u.parts.user = some (u.username, nonempty u.password) := by
      simp only [URL.parts, if_neg none]
    have at' := units_led (c := atSign) (by decide) (u.username ++ led colon (nonempty u.password))
      (some [])
    have colon' := units_led (c := colon) (by decide) u.username (nonempty u.password)
    rw [if_neg none, user, Option.map_some, closed_some, Written.userText]
    rw [led_some] at at'
    rw [at', colon', units_concat]
    congr 1
    by_cases empty : u.password = []
    · rw [if_pos empty]
      simp [nonempty, empty, newStringLen, Str.units]
    · rw [if_neg empty, units_concat, units_concat, nonempty, if_neg empty, led_some,
        units_newStringLen_cons (by decide), List.append_assoc]
      rfl

/-- The joined text is the string of the joined bytes. -/
theorem units_reassembled (u : NetUrl.URL) (path : led slash u.parts.path = u.path) :
    (urlObject u).reassembled.units =
      (newStringLen (start u.scheme ++ u.parts.text)).units := by
  have text : start u.scheme ++ u.parts.text =
      ((closed slash (some (u.scheme ++ [colon, slash])) ++
        (closed atSign (u.parts.user.map Written.userText) ++ u.host)) ++
          led slash u.parts.path ++ led question u.parts.query) ++ led NetUrl.hash u.parts.fragment := by
    rw [← Written.start_eq_closed]
    simp only [Written.text, Written.front, Written.upToPath, Written.authority, List.append_assoc]
    rfl
  have first : closed slash (some (u.scheme ++ [colon, slash])) =
      closed colon (some u.scheme) ++ [slash, slash] := by
    simp
  have search : led question u.parts.query =
      if u.rawQuery ≠ [] then question :: u.rawQuery else [] := by
    simp only [URL.parts, nonempty]
    split_ifs <;> simp_all
  have hash : led NetUrl.hash u.parts.fragment =
      if u.fragment ≠ [] then NetUrl.hash :: u.fragment else [] := by
    simp only [URL.parts, nonempty]
    split_ifs <;> simp_all
  rw [text, units_led (by decide), units_led (by decide), units_led (by decide),
    units_closed (by decide), units_closed (by decide), first, units_closed (by decide), path,
    search, hash, ← units_userInfo]
  simp only [UrlObject.reassembled, units_concat, List.append_assoc]
  rfl

/-- The parts of a URL in the text it is given in. -/
def partsOf (s : GoString) : Written := .ofText (((cut colon s).2.getD []).drop 2)

theorem partsOf_text {scheme : GoString} (letters : ∀ c ∈ scheme, isLetter c = true) {w : Written}
    (sep : w.Separated) : partsOf (start scheme ++ w.text) = w := by
  have noColon : colon ∉ scheme := fun mem => (letter_ne (letters _ mem)).1 rfl
  have shape : start scheme ++ w.text = scheme ++ colon :: slash :: slash :: w.text := by
    simp [start]
  rw [partsOf, shape, cut_append_cons noColon]
  exact Written.ofText_text sep

section Reassembly

variable (lib : NetLib) (E : Engine) {ε : Type}

/-- The URL object that a call of `URL` with one string returns. -/
def Accepts (s : Rt E) (text : Str) (o : UrlObject) : Prop :=
  (run E (URL lib [.string text] : Call E.Obj ε UrlObject) s).result = some o

theorem accepts_iff (s : Rt E) (text : Str) (o : UrlObject) :
    Accepts lib E (ε := ε) s text o ↔
      ∃ u, Parse lib.isIPv6 (toCStringLen text) = some u ∧ o = urlObject u := by
  unfold Accepts URL
  simp only [Call.string_bind, run_string, Call.pure_bind]
  cases Parse lib.isIPv6 (toCStringLen text) with
  | none => simp [run]
  | some u => simp [eq_comm]

theorem units_js {t : String} (h : ∀ c ∈ ascii t, c.toNat < 0x80) {buf : Bytes}
    (eq : (newStringLen buf).units = (js t).units) : buf = ascii t := by
  have same := toCStringLen_congr eq
  rw [toCStringLen_js (by simpa using h)] at same
  have low : ∀ c ∈ buf, c.toNat < 0x80 := by
    refine ascii_of_decodeBuf16 fun v hv => ?_
    rw [← units_newStringLen, eq] at hv
    obtain ⟨c, hc, rfl⟩ := List.mem_map.mp hv
    have small := h c hc
    rw [toNat_ofNat16_of_lt (by omega)]
    exact small
  rw [← same]
  exact (Written.viaString_ascii low).symm

/-- The parts of a URL put together are the URL exactly if they stand for themselves. -/
theorem url_reassembles_iff (s t : Rt E) (text : Str) (o : UrlObject)
    (accepted : Accepts lib E (ε := ε) s text o)
    (web : o.protocol.units = (js "http:").units ∨ o.protocol.units = (js "https:").units)
    (host : o.host.units ≠ []) :
    (∃ o', Accepts lib E (ε := ε) t o.reassembled o' ∧ o'.href.units = o.href.units) ↔
      Reassembles (partsOf (toCStringLen text)) := by
  obtain ⟨u, parsed, rfl⟩ := (accepts_iff lib E s text o).mp accepted
  have isWeb : IsWeb u.scheme := by
    rcases web with web | web
    · exact .inl (List.append_left_injective [colon] (units_js (by decide) web))
    · exact .inr (List.append_left_injective [colon] (units_js (by decide) web))
  have host : u.host ≠ [] := fun empty => host ((units_eq_nil_iff _).mpr empty)
  obtain ⟨start', w, textEq, letters, sep, r, query, ctl⟩ := reads_of_string parsed isWeb host
  have path := led_parts_path r
  have joined : toCStringLen (urlObject u).reassembled =
      viaString (start u.scheme ++ u.parts.text) :=
    toCStringLen_congr (units_reassembled u path)
  have webLetters := isWeb_letters ((web_lower isWeb).symm ▸ isWeb)
  rw [textEq, partsOf_text letters sep]
  constructor
  · rintro ⟨o', accepted', same⟩
    obtain ⟨u', parsed', rfl⟩ := (accepts_iff lib E t _ o').mp accepted'
    have ascii := web_ascii isWeb
    have text' := Written.viaString_text (w := u.parts) ascii
    obtain ⟨wText, sep'⟩ := Written.text_ofText (u.parts.map viaString).text
    rw [← wText] at text'
    have parsed'' := parsed'
    rw [joined, text'] at parsed''
    obtain ⟨ctl', r'⟩ := (Parse_eq_some_iff sep' (web_ne isWeb) webLetters).mp parsed''
    rw [web_lower isWeb] at r'
    have formed : (Written.ofText (u.parts.map viaString).text).map viaString =
        .ofText (u.parts.map viaString).text := by
      refine Written.map_viaString (Written.separated_iff_clean.mp sep') ascii ?_
      rw [← text', ← joined]
      exact viaString_toCStringLen _
    have strings : u'.string = u.string := by
      have eq := toCStringLen_congr same
      change viaString u'.string = viaString u.string at eq
      rwa [viaString_string isWeb r' (congrArg Written.query formed),
        viaString_string isWeb r query] at eq
    exact reassembles_of_string isWeb sep sep' r r' host text'.symm ctl' strings
  · intro c
    have f := partFacts isWeb r c
    have formed := map_parts r f query
    have fixed := Written.viaString_text (w := u.parts) (web_ascii isWeb)
    rw [formed] at fixed
    have reads := reads_parts isWeb r c
    rw [← web_lower isWeb] at reads
    have reread := (Parse_eq_some_iff (Written.separated_iff_clean.mpr (clean_parts sep r f))
      (web_ne isWeb) webLetters).mpr ⟨ctl_parts isWeb r f ctl, reads⟩
    refine ⟨urlObject u.reread, (accepts_iff lib E t _ _).mpr ⟨u.reread, ?_, rfl⟩, ?_⟩
    · rw [joined, fixed]
      exact reread
    · exact congrArg (fun s => (newStringLen s).units) (string_reread isWeb r c host)

end Reassembly

/-- Nothing in brackets is an address and no reference is resolved. -/
def plainLib : NetLib := ⟨fun _ => false, fun _ ref => ref⟩

/-- `http://me@h/a?b#c`. -/
def plainURL : NetUrl.URL :=
  { newURL with
    scheme := ascii "http", user := some ⟨ascii "me", none⟩, host := ascii "h"
    path := ascii "/a", rawQuery := ascii "b", fragment := ascii "c" }

/-- A URL without escapes is put together from its parts. -/
theorem url_reassembles_plain :
    ∃ o', Accepts plainLib plainEngine (ε := Empty) plainRt (urlObject plainURL).reassembled o' ∧
      o'.href.units = (urlObject plainURL).href.units := by
  have accepted : Accepts plainLib plainEngine (ε := Empty) plainRt (js "http://me@h/a?b#c")
      (urlObject plainURL) :=
    (accepts_iff plainLib plainEngine plainRt _ _).mpr ⟨plainURL, by decide +kernel, rfl⟩
  have parts : partsOf (toCStringLen (js "http://me@h/a?b#c")) =
      ⟨some (ascii "me", none), ascii "h", some (ascii "a"), some (ascii "b"), some (ascii "c")⟩ := by
    decide +kernel
  have formed {s : GoString} (h : viaString s = s) : WellFormed s := viaString_eq_iff.mp h
  refine (url_reassembles_iff plainLib plainEngine plainRt plainRt _ _ accepted
    (.inl (by decide +kernel)) (by decide +kernel)).mpr ?_
  rw [parts]
  refine ⟨?_, ?_, ?_, ?_, ?_, by decide, ?_⟩
  · rintro v ⟨⟩
    exact ⟨ascii "me", by decide +kernel, by decide, by decide⟩
  · rintro v ⟨⟩
    simp
  · rintro v ⟨⟩
    decide
  · exact ⟨ascii "h", by decide +kernel, by decide, formed (by decide +kernel)⟩
  · exact ⟨ascii "/a", by decide +kernel, by decide, by decide, by decide, by decide,
      formed (by decide +kernel), rfl⟩
  · exact ⟨ascii "c", by decide +kernel, by decide, formed (by decide +kernel), rfl⟩

/-- The URL object of `http://h/a%3Fb`, whose path has a question mark. -/
theorem url_reassembles_fails :
    ∃ o, Accepts plainLib plainEngine (ε := Empty) plainRt (js "http://h/a%3Fb") o ∧
      o.protocol.units = (js "http:").units ∧ o.host.units ≠ [] ∧
      ¬ ∃ o', Accepts plainLib plainEngine (ε := Empty) plainRt o.reassembled o' ∧
        o'.href.units = o.href.units := by
  let u : NetUrl.URL :=
    { newURL with scheme := ascii "http", host := ascii "h", path := ascii "/a?b" }
  refine ⟨urlObject u, (accepts_iff plainLib plainEngine plainRt _ _).mpr
    ⟨u, by decide +kernel, rfl⟩, by decide +kernel, by decide +kernel, ?_⟩
  rintro ⟨o', accepted, same⟩
  obtain ⟨u', parsed, rfl⟩ := (accepts_iff plainLib plainEngine plainRt _ o').mp accepted
  have href := congrArg (Option.map fun v => (urlObject v).href.units) parsed
  rw [Option.map_some, same] at href
  revert href
  decide +kernel

end Polyfill
