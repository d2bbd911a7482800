import Goqjs.TextRoundTrip

/-!
# Bytes as strings

`atob`, `btoa` and the `latin1` and `binary` encodings of `Buffer` are to treat a
string as bytes, one for each unit. All of them go through UTF-8 instead, so
they do what they are for on the bytes that UTF-8 leaves alone.
-/

namespace Polyfill

open Quickjs Qjs

variable {E : Engine} {ε : Type}

theorem toCStringLen_of_ascii {s : Str} {buf : Bytes} (h : ∀ c ∈ buf, c.toNat < 0x80)
    (units : s.units = latin1 buf) : toCStringLen s = buf :=
  (toCStringLen_latin1_iff units).mpr h

/-- The Web's binary-string codec on `b`: `btoa` gives the standard padded base64, and `atob`
reads the padded, the unpadded and the URL-safe texts. -/
def BinaryStringCodec (ε : Type) (rt : Rt E) (b : Bytes) : Prop :=
  (∀ s : Str, s.units = latin1 b →
    ReturnsString (btoa [.string s] : Call E.Obj ε (Value E.Obj)) rt
      (latin1 (Base64.encodeToString Base64.stdEncoding b))) ∧
  ∀ e ∈ [Base64.stdEncoding, Base64.rawStdEncoding, Base64.urlEncoding, Base64.rawURLEncoding],
    ∀ t : Str, t.units = latin1 (Base64.encodeToString e b) →
      ReturnsString (atob [.string t] : Call E.Obj ε (Value E.Obj)) rt (latin1 b)

theorem btoa_returns (rt : Rt E) (s : Str) (u : Units) :
    ReturnsString (btoa [.string s] : Call E.Obj ε (Value E.Obj)) rt u ↔
      latin1 (Base64.encodeToString Base64.stdEncoding (toCStringLen s)) = u := by
  have written := Base64.encodeToString_ascii Base64.stdEncoding (toCStringLen s)
  simp only [ReturnsString, btoa, Call.string_bind, run_string, run_pure, Value.newString,
    Option.some.injEq, Value.string.injEq]
  constructor
  · rintro ⟨t, rfl, rfl⟩
    exact (units_newStringLen_ascii written).symm
  · rintro rfl
    exact ⟨_, rfl, units_newStringLen_ascii written⟩

/-- What `atob` makes of a text: the bytes of the first decoder that takes it. -/
def atobBytes (text : Bytes) : Option Bytes :=
  if (Base64.decodeString Base64.stdEncoding text).2 then
    some (Base64.decodeString Base64.stdEncoding text).1
  else if (Base64.decodeString Base64.rawStdEncoding text).2 then
    some (Base64.decodeString Base64.rawStdEncoding text).1
  else none

theorem atob_returns (rt : Rt E) (t : Str) (u : Units) :
    ReturnsString (atob [.string t] : Call E.Obj ε (Value E.Obj)) rt u ↔
      ∃ decoded, atobBytes (toCStringLen t) = some decoded ∧
        (newStringLen decoded).units = u := by
  simp only [ReturnsString, atob, Call.string_bind, run_string, atobBytes]
  split_ifs
  · simp [Value.newString]
  · simp [Value.newString]
  · simp [run]

/-- A text that one of the two standard encoders has written is read back. -/
theorem atobBytes_std (padded : Bool) (b : Bytes) :
    atobBytes (Base64.encodeToString (Base64.std padded) b) = some b := by
  have padDecode := Base64.decodeString_encodeToString Base64.stdEncoding b
  cases padded with
  | true =>
    simp only [atobBytes]
    rw [show Base64.std true = Base64.stdEncoding from rfl, padDecode]
    rfl
  | false =>
    have rawDecode := Base64.decodeString_encodeToString Base64.rawStdEncoding b
    simp only [atobBytes]
    rw [show Base64.std false = Base64.rawStdEncoding from rfl, rawDecode]
    by_cases ok : (Base64.decodeString Base64.stdEncoding
        (Base64.encodeToString Base64.rawStdEncoding b)).2 = true
    · -- no quantum is left open, so that both texts are one
      have full : b.length % 3 = 0 := by
        have text : Base64.encodeToString Base64.rawStdEncoding b =
            (Base64.sextets b).map Base64.stdEncoding.digit := by
          rw [Base64.encodeToString]
          exact List.append_nil _
        rw [Base64.decodeString, Base64.filter_encodeToString, text] at ok
        exact Base64.decodeQuanta_digits rfl b ok
      have same : Base64.encodeToString Base64.rawStdEncoding b =
          Base64.encodeToString Base64.stdEncoding b := by
        have noPadding : Base64.padding b.length = [] := by
          rw [Base64.padding, full]
          rfl
        simp only [Base64.encodeToString, Base64.rawStdEncoding, Base64.stdEncoding, Base64.std,
          noPadding]
        rfl
      rw [same, padDecode]
      rfl
    · rw [if_neg ok]
      rfl

theorem atobBytes_url (padded : Bool) {b : Bytes} (h : ∃ n ∈ Base64.sextets b, 62 ≤ n) :
    atobBytes (Base64.encodeToString (Base64.url padded) b) = none := by
  have std := Base64.decodeString_std_url true padded h
  have raw := Base64.decodeString_std_url false padded h
  rw [atobBytes, Base64.stdEncoding, Base64.rawStdEncoding, std, raw]
  rfl

/-- The codec is right for the ASCII bytes without a 6-bit group 62 or 63, and for no others. -/
theorem binary_string_codec_iff (E : Engine) (ε : Type) (rt : Rt E) (b : Bytes) :
    BinaryStringCodec ε rt b ↔
      (∀ c ∈ b, c.toNat < 0x80) ∧ ∀ n ∈ Base64.sextets b, n < 62 := by
  constructor
  · rintro ⟨out, back⟩
    constructor
    · have text := (btoa_returns rt (.narrow b) _).mp (out (.narrow b) rfl)
      have bytes := congrArg (Base64.decodeString Base64.stdEncoding) (latin1_injective text)
      rw [Base64.decodeString_encodeToString, Base64.decodeString_encodeToString] at bytes
      exact (toCStringLen_latin1_iff (s := .narrow b) rfl).mp (Prod.mk.inj bytes).1
    · intro n hn
      by_contra large
      let text := Base64.encodeToString Base64.urlEncoding b
      obtain ⟨decoded, hd, _⟩ := (atob_returns rt (.narrow text) _).mp
        (back Base64.urlEncoding (by simp) (.narrow text) rfl)
      rw [toCStringLen_of_ascii (Base64.encodeToString_ascii _ _) rfl,
        Base64.urlEncoding, atobBytes_url true ⟨n, hn, by omega⟩] at hd
      cases hd
  · rintro ⟨ascii, small⟩
    constructor
    · intro s hs
      rw [btoa_returns, toCStringLen_of_ascii ascii hs]
    · intro e he t ht
      have text : ∃ padded, Base64.encodeToString e b =
          Base64.encodeToString (Base64.std padded) b := by
        simp only [List.mem_cons, List.not_mem_nil, or_false] at he
        rcases he with rfl | rfl | rfl | rfl
        · exact ⟨true, rfl⟩
        · exact ⟨false, rfl⟩
        · exact ⟨true, Base64.encodeToString_url_eq true small⟩
        · exact ⟨false, Base64.encodeToString_url_eq false small⟩
      obtain ⟨padded, text⟩ := text
      rw [atob_returns, toCStringLen_of_ascii (Base64.encodeToString_ascii _ _) ht, text,
        atobBytes_std]
      exact ⟨b, rfl, units_newStringLen_ascii ascii⟩

/-- `btoa('é')` is the base64 of two bytes. -/
theorem binary_string_codec_fails : ¬ BinaryStringCodec Empty plainRt [0xE9] := by
  rintro ⟨out, _⟩
  have text := (btoa_returns plainRt (.narrow [0xE9]) _).mp (out (.narrow [0xE9]) rfl)
  revert text
  decide

/-- The encodings that are to stand for bytes. -/
inductive BytesEncoding where
  | hex
  | base64
  | latin1
  | binary
  deriving DecidableEq

namespace BytesEncoding

def name : BytesEncoding → String
  | hex => "hex"
  | base64 => "base64"
  | latin1 => "latin1"
  | binary => "binary"

/-- The two that have a branch of their own. -/
def digits (e : BytesEncoding) : Prop := e = hex ∨ e = base64

end BytesEncoding

theorem toCStringLen_name (e : BytesEncoding) : toCStringLen (js e.name) = ascii e.name := by
  cases e
  all_goals exact toCStringLen_js (by decide)

/-- `Buffer.from(Buffer.toString(buf, e), e)` holds what `buf` holds. -/
def Lossless (ε : Type) (rt : Rt E) (e : BytesEncoding) (b : Bytes) : Prop :=
  (run E (do
    let s ← bufferToString [.arrayBuffer b, .string (js e.name)]
    bufferFrom [s, .string (js e.name)] : Call E.Obj ε (Value E.Obj)) rt).result =
      some (.arrayBuffer b)

/-- `Buffer.from(s, e)` holds a byte for each unit of `s`. -/
def ByteForUnit (ε : Type) (rt : Rt E) (e : BytesEncoding) (s : Str) : Prop :=
  ∃ data, (run E (bufferFrom [.string s, .string (js e.name)] : Call E.Obj ε (Value E.Obj))
    rt).result = some (.arrayBuffer data) ∧ data.length = s.units.length

theorem run_bufferFrom (rt : Rt E) (s : Str) (e : BytesEncoding) :
    (run E (bufferFrom [.string s, .string (js e.name)] : Call E.Obj ε (Value E.Obj)) rt).result =
      some (.arrayBuffer (decodeText (ascii e.name) (toCStringLen s))) := by
  simp only [bufferFrom, encodingArg, Call.string_bind, Call.toByteArray_bind, run_string,
    run_toByteArray_string, result_after, toCStringLen_name]
  rfl

theorem lossless_eq (rt : Rt E) (e : BytesEncoding) (b : Bytes) :
    Lossless ε rt e b ↔
      decodeText (ascii e.name) (toCStringLen (newStringLen (encodeText (ascii e.name) b))) = b := by
  simp only [Lossless, bufferToString, encodingArg, Value.newString, Call.toByteArray_bind,
    Call.string_bind, Call.op_bind, Call.pure_bind, run_toByteArray, run_string,
    toCStringLen_name, run_bufferFrom, Option.some.injEq, Value.arrayBuffer.injEq]

/-- The names without a branch are UTF-8 in both directions. -/
theorem texts_of_not_digits {e : BytesEncoding} (h : ¬ e.digits) (data : Bytes) :
    encodeText (ascii e.name) data = data ∧ decodeText (ascii e.name) data = data := by
  have notBase64 : ascii e.name ≠ ascii "base64" := by
    cases e with
    | base64 => exact absurd (.inr rfl) h
    | hex | latin1 | binary => decide
  have notHex : ascii e.name ≠ ascii "hex" := by
    cases e with
    | hex => exact absurd (.inl rfl) h
    | base64 | latin1 | binary => decide
  simp only [encodeText, decodeText, if_neg notBase64, if_neg notHex, and_self]

theorem lossless_iff (rt : Rt E) (e : BytesEncoding) (b : Bytes) :
    Lossless ε rt e b ↔ e.digits ∨ WellFormed b := by
  rw [lossless_eq]
  by_cases h : e.digits
  · refine iff_of_true ?_ (.inl h)
    rcases h with rfl | rfl
    · have text := toCStringLen_newStringLen_ascii (Hex.encodeToString_ascii b)
      change decodeText (ascii "hex") (toCStringLen (newStringLen (Hex.encodeToString b))) = b
      rw [text, decodeText, if_neg (by decide), if_pos rfl, Hex.decodeString_encodeToString]
    · have text := toCStringLen_newStringLen_ascii
        (Base64.encodeToString_ascii Base64.stdEncoding b)
      change decodeText (ascii "base64") (toCStringLen (newStringLen
        (Base64.encodeToString Base64.stdEncoding b))) = b
      rw [text, decodeText, if_pos rfl, Base64.decodeString_encodeToString]
      rfl
  · rw [(texts_of_not_digits h b).1, (texts_of_not_digits h _).2,
      toCStringLen_newStringLen_iff, or_iff_right h]

theorem exists_latin1 {u : Units} (small : ∀ c ∈ u, c.toNat ≤ 0xFF) :
    u = latin1 (u.map (fun c => .ofNat c.toNat)) := by
  rw [latin1, List.map_map]
  refine (List.map_id' u).symm.trans (List.map_congr_left fun c hc => ?_)
  have h := small c hc
  simp only [Function.comp_apply]
  rw [toNat_ofNat_of_lt (by omega), UInt16.ofNat_toNat]

theorem byteForUnit_iff (rt : Rt E) {e : BytesEncoding} (h : ¬ e.digits) {s : Str}
    (small : ∀ c ∈ s.units, c.toNat ≤ 0xFF) :
    ByteForUnit ε rt e s ↔ ∀ c ∈ s.units, c.toNat < 0x80 := by
  have units := exists_latin1 small
  have length := length_toCStringLen_latin1 units
  simp only [ByteForUnit, run_bufferFrom, (texts_of_not_digits h _).2, Option.some.injEq,
    Value.arrayBuffer.injEq, exists_eq_left', length, List.length_map]
  rw [Nat.add_eq_left, List.countP_eq_zero]
  simp only [List.mem_map, decide_eq_true_eq, forall_exists_index, and_imp,
    forall_apply_eq_imp_iff₂]
  refine forall₂_congr fun c hc => ?_
  have hc := small c hc
  rw [toNat_ofNat_of_lt (by omega)]
  omega

/-- `hex` and `base64` lose nothing. `latin1` and `binary` keep exactly the bytes that are
well-formed UTF-8, and make one byte of a unit exactly below `0x80`. -/
theorem buffer_encodings_iff (E : Engine) (ε : Type) (rt : Rt E) (e : BytesEncoding) :
    (∀ b, Lossless ε rt e b ↔ e.digits ∨ WellFormed b) ∧
    (¬ e.digits → ∀ s : Str, (∀ c ∈ s.units, c.toNat ≤ 0xFF) →
      (ByteForUnit ε rt e s ↔ ∀ c ∈ s.units, c.toNat < 0x80)) :=
  ⟨lossless_iff rt e, fun h _ small => byteForUnit_iff rt h small⟩

/-- Letters and the two bytes of one more in the one direction, letters in the other. -/
theorem buffer_encodings_letters : Lossless Empty plainRt .latin1 [0x41, 0xC3, 0xA9, 0x42] ∧
    ByteForUnit Empty plainRt .binary (.narrow [0x41, 0x42, 0x7E]) :=
  ⟨((buffer_encodings_iff plainEngine Empty plainRt .latin1).1 [0x41, 0xC3, 0xA9, 0x42]).mpr
      (.inr ((toCStringLen_newStringLen_iff _).mp (by decide))),
    ((buffer_encodings_iff plainEngine Empty plainRt .binary).2 (by simp [BytesEncoding.digits])
      (.narrow [0x41, 0x42, 0x7E]) (by decide)).mpr (by decide)⟩

/-- One byte `0xFF` comes back as the three bytes of `U+FFFD`. -/
theorem buffer_latin1_fails : ¬ Lossless Empty plainRt .latin1 [0xFF] ∧
    ¬ ByteForUnit Empty plainRt .latin1 (.narrow [0xFF]) := by
  constructor
  · rw [lossless_eq]
    decide
  · rintro ⟨data, run, length⟩
    rw [run_bufferFrom] at run
    cases run
    revert length
    decide

end Polyfill
