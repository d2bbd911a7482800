import Goqjs.EngineText
import Goqjs.UrlHosts

/-!
# A URL put together from its decoded parts

Text put together from decoded parts can be cut elsewhere, and its parts can be decoded
once more. Neither happens to a URL that is written as before: it would have fewer ASCII
bytes than the text it was read from.
-/

namespace NetUrl

open Qjs Separators Percent Quickjs

def ledWeight : Option GoString → Nat
  | none => 0
  | some s => Coding.weight s + 1

theorem weight_led {c : UInt8} (h : c.toNat < 0x80) (o : Option GoString) :
    Coding.weight (led c o) = ledWeight o := by
  cases o with
  | none => rfl
  | some s => rw [led_some, Coding.weight_cons, if_pos h, ledWeight]

theorem weight_closed {c : UInt8} (h : c.toNat < 0x80) (o : Option GoString) :
    Coding.weight (closed c o) = ledWeight o := by
  cases o with
  | none => rfl
  | some s =>
    rw [closed_some, Coding.weight_append, Coding.weight_cons, if_pos h, ledWeight]
    rfl

theorem weight_viaString (s : GoString) : Coding.weight (viaString s) = Coding.weight s := by
  have count (t : GoString) : Coding.weight t = (t.filter isAscii).length :=
    List.countP_eq_length_filter
  rw [count, count, filter_viaString]

namespace Written

variable {w : Written}

theorem weight_userText (u : GoString × Option GoString) :
    Coding.weight (userText u) = Coding.weight u.1 + ledWeight u.2 := by
  rw [userText, Coding.weight_append, weight_led (by decide)]

theorem weight_text : Coding.weight w.text = ledWeight (w.user.map userText) +
    Coding.weight w.host + ledWeight w.path + ledWeight w.query + ledWeight w.fragment := by
  simp only [text, front, upToPath, authority, Coding.weight_append,
    weight_led (show hash.toNat < 0x80 by decide), weight_led (show slash.toNat < 0x80 by decide),
    weight_led (show question.toNat < 0x80 by decide),
    weight_closed (show atSign.toNat < 0x80 by decide)]

def map (f : GoString → GoString) (w : Written) : Written where
  user := w.user.map fun u => (f u.1, u.2.map f)
  host := f w.host
  path := w.path.map f
  query := w.query.map f
  fragment := w.fragment.map f

theorem viaString_ascii {s : GoString} (h : ∀ c ∈ s, c.toNat < 0x80) : viaString s = s := by
  induction s with
  | nil => rfl
  | cons c s ih =>
    have first := viaString_append_cons [] (h c List.mem_cons_self) s
    rwa [viaString_nil, List.nil_append, List.nil_append,
      ih fun d hd => h d (List.mem_cons_of_mem _ hd)] at first

theorem start_eq_closed (scheme : GoString) :
    start scheme = closed slash (some (scheme ++ [colon, slash])) := by
  simp [start]

theorem viaString_userText (u : GoString × Option GoString) :
    viaString (userText u) = userText (viaString u.1, u.2.map viaString) :=
  viaString_led (by decide) u.1 u.2

theorem viaString_text {scheme : GoString} (ascii : ∀ c ∈ scheme, c.toNat < 0x80) :
    viaString (start scheme ++ w.text) = start scheme ++ (w.map viaString).text := by
  have low : ∀ c ∈ scheme ++ [colon, slash], c.toNat < 0x80 := by
    intro c hc
    rcases List.mem_append.mp hc with hc | hc
    · exact ascii c hc
    · simp only [List.mem_cons, List.not_mem_nil, or_false] at hc
      rcases hc with rfl | rfl <;> decide
  have users : (w.user.map userText).map viaString =
      (w.user.map fun u => (viaString u.1, u.2.map viaString)).map userText := by
    cases w.user with
    | none => rfl
    | some u => exact congrArg some (viaString_userText u)
  simp only [text, front, upToPath, authority, ← List.append_assoc]
  rw [viaString_led (by decide), viaString_led (by decide), viaString_led (by decide),
    List.append_assoc (start scheme), start_eq_closed, viaString_closed (by decide),
    viaString_closed (by decide), users, Option.map_some, viaString_ascii low]
  simp only [map, List.append_assoc]

theorem clean_map (clean : w.Clean) : (w.map viaString).Clean := by
  refine ⟨?_, ?_, ?_, ?_, ?_⟩
  · intro u hu
    obtain ⟨v, hv, rfl⟩ := Option.map_eq_some_iff.mp hu
    exact fun mem => clean.colon v hv ((mem_viaString (by decide)).mp mem)
  · intro u hu c hc
    obtain ⟨v, hv, rfl⟩ := Option.map_eq_some_iff.mp hu
    have low : ∀ c ∈ [slash, question, hash], c.toNat < 0x80 := by decide
    obtain ⟨name, password⟩ := clean.user v hv c hc
    refine ⟨fun mem => name ((mem_viaString (low c hc)).mp mem), fun q hq mem => ?_⟩
    obtain ⟨p, hp, rfl⟩ := Option.map_eq_some_iff.mp hq
    exact password p hp ((mem_viaString (low c hc)).mp mem)
  · intro c hc mem
    have low : ∀ c ∈ [atSign, slash, question, hash], c.toNat < 0x80 := by decide
    exact clean.host c hc ((mem_viaString (low c hc)).mp mem)
  · intro p hp
    obtain ⟨q, hq, rfl⟩ := Option.map_eq_some_iff.mp hp
    exact ⟨fun mem => (clean.path q hq).1 ((mem_viaString (by decide)).mp mem),
      fun mem => (clean.path q hq).2 ((mem_viaString (by decide)).mp mem)⟩
  · intro p hp
    obtain ⟨q, hq, rfl⟩ := Option.map_eq_some_iff.mp hp
    exact fun mem => clean.query q hq ((mem_viaString (by decide)).mp mem)

/-- A text that comes back from the engine has parts that come back. -/
theorem map_viaString (clean : w.Clean) {scheme : GoString}
    (ascii : ∀ c ∈ scheme, c.toNat < 0x80)
    (h : viaString (start scheme ++ w.text) = start scheme ++ w.text) : w.map viaString = w := by
  rw [viaString_text ascii] at h
  exact eq_of_text (separated_iff_clean.mpr (clean_map clean)) (separated_iff_clean.mpr clean)
    (List.append_cancel_left h)

end Written

def nonempty (s : GoString) : Option GoString := if s = [] then none else some s

theorem getD_nonempty (s : GoString) : (nonempty s).getD [] = s := by
  unfold nonempty
  split_ifs with h
  · exact h.symm
  · rfl

/-- The parts of a URL, decoded, as a script puts them together. -/
def URL.parts (u : URL) : Written where
  user :=
    if u.username = [] ∧ u.password = [] then none else some (u.username, nonempty u.password)
  host := u.host
  path := (cut slash u.path).2
  query := nonempty u.rawQuery
  fragment := nonempty u.fragment

variable {isIPv6 : GoString → Bool} {scheme : GoString} {w : Written} {u : URL}

theorem led_parts_path (r : Reads isIPv6 scheme w u) : led slash u.parts.path = u.path := by
  obtain ⟨o, ho, _⟩ := unescape_led w.path r.path
  have cutPath : cut slash u.path = ([], o) := by
    rw [ho]
    exact cut_glue List.not_mem_nil o
  rw [URL.parts, cutPath, ho]

theorem led_injective {c : UInt8} {o p : Option GoString} (h : led c o = led c p) : o = p := by
  cases o <;> cases p <;> simp_all

theorem decoded_weight {mode : Encoding} (free : mode.Free) {s d : GoString}
    (h : unescape s mode = some d) : Coding.weight d + 2 * s.count percent ≤ Coding.weight s :=
  (Coding.decoded_of_decode h).weight_le (notForm_of_free free)

theorem eq_of_weight {mode : Encoding} (free : mode.Free) {s d : GoString}
    (h : unescape s mode = some d) (same : Coding.weight s ≤ Coding.weight d) : s = d := by
  have bound := decoded_weight free h
  have none : s.count percent = 0 := by omega
  exact ((Coding.decoded_of_decode h).eq_of_noPercent (notForm_of_free free)
    (List.count_eq_zero.mp none)).symm

theorem user_weight {written : Option (GoString × Option GoString)}
    (r : ReadsUser written u.user) :
    ledWeight (u.parts.user.map Written.userText) ≤ ledWeight (written.map Written.userText) ∧
      (ledWeight (written.map Written.userText) ≤ ledWeight (u.parts.user.map Written.userText) →
        written = u.parts.user) := by
  have free : Encoding.Free .userPassword := .inr (.inl rfl)
  generalize hu : u.user = user at r
  cases r with
  | absent => simp [URL.parts, URL.username, URL.password, hu]
  | @name n d valid name =>
    have bound := decoded_weight free name
    by_cases empty : d = []
    · simp [URL.parts, URL.username, URL.password, hu, empty, ledWeight]
    · have parts : u.parts.user = some (d, none) := by
        simp [URL.parts, URL.username, URL.password, hu, empty, nonempty]
      simp only [parts, Option.map_some, ledWeight, Written.weight_userText]
      refine ⟨by omega, fun le => ?_⟩
      rw [eq_of_weight free name (by omega)]
  | @password n d q e valid name password =>
    have first := decoded_weight free name
    have second := decoded_weight free password
    by_cases noPassword : e = []
    · by_cases noName : d = []
      · simp [URL.parts, URL.username, URL.password, hu, noName, noPassword, ledWeight]
      · have parts : u.parts.user = some (d, none) := by
          simp [URL.parts, URL.username, URL.password, hu, noName, noPassword, nonempty]
        simp only [parts, Option.map_some, ledWeight, Written.weight_userText]
        exact ⟨by omega, fun le => by omega⟩
    · have parts : u.parts.user = some (d, some e) := by
        simp [URL.parts, URL.username, URL.password, hu, noPassword, nonempty]
      simp only [parts, Option.map_some, ledWeight, Written.weight_userText]
      refine ⟨by omega, fun le => ?_⟩
      rw [eq_of_weight free name (by omega), eq_of_weight free password (by omega)]

theorem part_weight {o : Option GoString} {s : GoString} (h : s = o.getD []) :
    ledWeight (nonempty s) ≤ ledWeight o ∧ (ledWeight o ≤ ledWeight (nonempty s) → o = nonempty s) := by
  subst h
  cases o with
  | none => simp [nonempty]
  | some t =>
    unfold nonempty
    split_ifs with empty
    · simp [ledWeight]
    · simp

theorem fragment_weight (r : Reads isIPv6 scheme w u) :
    ledWeight u.parts.fragment ≤ ledWeight w.fragment ∧
      (ledWeight w.fragment ≤ ledWeight u.parts.fragment → w.fragment = u.parts.fragment) := by
  have free : Encoding.Free .fragment := .inr (.inr rfl)
  have fragment := r.fragment
  cases hf : w.fragment with
  | none =>
    rw [hf] at fragment
    have empty : u.fragment = [] := (Option.some.inj fragment).symm
    simp [URL.parts, nonempty, empty]
  | some f =>
    rw [hf] at fragment
    change unescape f .fragment = some u.fragment at fragment
    have bound := decoded_weight free fragment
    by_cases empty : u.fragment = []
    · simp [URL.parts, nonempty, empty, ledWeight]
    · simp only [URL.parts, nonempty, if_neg empty, ledWeight]
      refine ⟨by omega, fun le => ?_⟩
      rw [eq_of_weight free fragment (by omega)]

/-- The decoded parts have no more ASCII bytes than the text they were read from, and as many only
where they are that text. -/
theorem parts_weight (r : Reads isIPv6 scheme w u)
    (le : Coding.weight w.text ≤ Coding.weight u.parts.text) : w = u.parts := by
  have user := user_weight r.user
  have hostRead := parseHost_eq_some_iff.mp r.host
  have host := hostRead.weight_le
  have path := decoded_weight (.inl rfl) r.path
  have query := part_weight r.rawQuery
  have fragment := fragment_weight r
  have pathEq (h : Coding.weight (led slash w.path) ≤ Coding.weight u.path) :
      w.path = u.parts.path := by
    have same := eq_of_weight (.inl rfl) r.path h
    rw [← led_parts_path r] at same
    exact led_injective same
  rw [← led_parts_path r] at path pathEq
  rw [weight_led (by decide), weight_led (by decide)] at path pathEq
  rw [Written.weight_text, Written.weight_text] at le
  change _ ≤ _ + Coding.weight u.host + _ + ledWeight (nonempty u.rawQuery) + _ at le
  have hostEq : w.host = u.host := by
    have none : w.host.count percent = 0 := by omega
    exact (hostRead.literally (List.count_eq_zero.mp none)).symm
  have userEq := user.2 (by omega)
  have queryEq := query.2 (by omega)
  have fragmentEq := fragment.2 (by omega)
  have pathEq := pathEq (by omega)
  cases w
  simp only at userEq hostEq pathEq queryEq fragmentEq
  rw [userEq, hostEq, pathEq, queryEq, fragmentEq]
  rfl

end NetUrl
