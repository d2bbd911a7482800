import Goqjs.BinaryCodecs

/-!
# lx.utils.buffer

`bufToString` calls the `toString` method of whatever it is given, or of what
`Buffer.from` makes of it. `Buffer.from` returns a bare `ArrayBuffer`, whose method
is the one of `Object.prototype`.
-/

namespace Prelude

open Quickjs Qjs Polyfill

variable {O ε : Type}

/-- A method, given the value it is called with. -/
abbrev Method (O ε : Type) := Value O → Call O ε (Value O)

/-- What the prelude asks of an object besides the conversions: whether it is a function, and
its `toString` if that is callable. -/
structure Objects (O ε : Type) where
  callable : O → Bool
  toStringMethod : Value O → Option (Method O ε)

/-- `typeof v === 'object'`. -/
def typeofObject (objects : Objects O ε) : Value O → Bool
  | .null | .arrayBuffer _ | .uint8Array _ _ _ | .record _ => true
  | .object o => !objects.callable o
  | _ => false

/-- `v.toString`, where it is a function. The two built-in ones ignore their argument. -/
def toStringMethod (objects : Objects O ε) : Value O → Option (Method O ε)
  | .arrayBuffer _ => some fun _ => return .string (js "[object ArrayBuffer]")
  | .uint8Array buffer offset length =>
    some fun _ => return .string (.narrow (viewText (viewBytes buffer offset length)))
  | v => objects.toStringMethod v

/-- `lx.utils.buffer.from`. -/
def bufferFrom (data encoding : Value O) : Call O ε (Value O) :=
  Polyfill.bufferFrom [data, encoding]

/-- `v.toString(format || 'utf8')`. -/
def callToString (objects : Objects O ε) (v format : Value O) : Call O ε (Value O) :=
  match toStringMethod objects v with
  | some method => method (format.orElse (.string (js "utf8")))
  | none => .throwError (ascii "not a function")

/-- `lx.utils.buffer.bufToString`. -/
def bufToString (objects : Objects O ε) (buf format : Value O) : Call O ε (Value O) :=
  if typeofObject objects buf && !buf.isNull && (toStringMethod objects buf).isSome then
    callToString objects buf format
  else do
    let b ← Polyfill.bufferFrom [buf, .string (js "binary")]
    callToString objects b format

inductive TextFormat where
  | utf8
  | hex
  | base64
  deriving DecidableEq

namespace TextFormat

def name : TextFormat → String
  | utf8 => "utf8"
  | hex => "hex"
  | base64 => "base64"

def isLowerHexDigit (c : UInt16) : Bool :=
  (0x30 ≤ c.toNat && c.toNat ≤ 0x39) || (0x61 ≤ c.toNat && c.toNat ≤ 0x66)

/-- The strings that the format writes: well-formed text, lower-case hex of even length,
padded base64. -/
def Canonical : TextFormat → Units → Prop
  | utf8, s => ∃ text, s = utf16 text
  | hex, s => s.all isLowerHexDigit = true ∧ s.length % 2 = 0
  | base64, s => ∃ data, s = latin1 (Base64.encodeToString Base64.stdEncoding data)

end TextFormat

variable {E : Engine}

/-- Both calls return strings, and the strings are equal. -/
def SameString (c d : Call E.Obj ε (Value E.Obj)) (rt : Rt E) : Prop :=
  ∃ u, ReturnsString c rt u ∧ ReturnsString d rt u

/-- What every `ArrayBuffer` is turned into. -/
def tag : Bytes := ascii "[object ArrayBuffer]"

theorem toCStringLen_format (f : TextFormat) : toCStringLen (js f.name) = ascii f.name := by
  cases f
  all_goals exact toCStringLen_js (by decide)

theorem bufToString_arrayBuffer (objects : Objects E.Obj ε) (rt : Rt E) (b : Bytes)
    (format : Value E.Obj) (u : Units) :
    ReturnsString (bufToString objects (.arrayBuffer b) format) rt u ↔ latin1 tag = u := by
  constructor
  · rintro ⟨t, ht, rfl⟩
    cases ht
    rfl
  · rintro rfl
    exact ⟨_, rfl, rfl⟩

theorem bufferToString_arrayBuffer (rt : Rt E) (b : Bytes) (f : TextFormat) (u : Units) :
    ReturnsString (bufferToString [.arrayBuffer b, .string (js f.name)] :
      Call E.Obj ε (Value E.Obj)) rt u ↔
        (newStringLen (encodeText (ascii f.name) b)).units = u := by
  simp only [ReturnsString, bufferToString, encodingArg, Value.newString, Call.toByteArray_bind,
    Call.string_bind, run_toByteArray, run_string, toCStringLen_format, run_pure,
    Option.some.injEq, Value.string.injEq, exists_eq_left']

theorem tag_ascii : ∀ c ∈ tag, c.toNat < 0x80 := by
  have all : tag.all (fun c => c.toNat < 0x80) = true := by decide
  simpa using all

/-- Only the format that keeps the bytes can give the tag, and only for the tag itself. -/
theorem encodeText_tag_iff (f : TextFormat) (b : Bytes) :
    (newStringLen (encodeText (ascii f.name) b)).units = latin1 tag ↔ f = .utf8 ∧ b = tag := by
  have bracket : (0x5B : UInt8) ∈ tag := by decide
  cases f with
  | utf8 =>
    have same : encodeText (ascii TextFormat.utf8.name) b = b := by
      rw [encodeText, if_neg (by decide), if_neg (by decide)]
    rw [same]
    refine ⟨fun h => ⟨rfl, ?_⟩, fun h => ?_⟩
    · have text : ∀ u ∈ utf8DecodeBuf16 b, u.toNat < 0x80 := by
        rw [← units_newStringLen, h]
        intro u hu
        obtain ⟨c, hc, rfl⟩ := List.mem_map.mp hu
        have small := tag_ascii c hc
        rw [toNat_ofNat16_of_lt (by omega)]
        exact small
      rw [units_newStringLen_ascii (ascii_of_decodeBuf16 text)] at h
      exact latin1_injective h
    · rw [h.2, units_newStringLen_ascii tag_ascii]
  | hex =>
    refine ⟨fun h => ?_, fun h => absurd h.1 (by decide)⟩
    have text : encodeText (ascii TextFormat.hex.name) b = Hex.encodeToString b := by
      rw [encodeText, if_neg (by decide), if_pos (by decide)]
    rw [text, units_newStringLen_ascii (Hex.encodeToString_ascii b)] at h
    rw [← latin1_injective h] at bracket
    exact absurd (by decide) (Hex.value_of_mem_encodeToString bracket)
  | base64 =>
    refine ⟨fun h => ?_, fun h => absurd h.1 (by decide)⟩
    have text : encodeText (ascii TextFormat.base64.name) b =
        Base64.encodeToString Base64.stdEncoding b := by
      rw [encodeText, if_pos (by decide)]
    rw [text, units_newStringLen_ascii (Base64.encodeToString_ascii _ b)] at h
    rw [← latin1_injective h] at bracket
    rcases Base64.known_of_mem_encodeToString _ bracket with h | h
    · exact absurd (by decide) h
    · exact absurd h (by decide)

/-- On the `ArrayBuffer` of `b` the two agree. -/
def Coherent (objects : Objects E.Obj ε) (rt : Rt E) (f : TextFormat) (b : Bytes) : Prop :=
  SameString (bufToString objects (.arrayBuffer b) (.string (js f.name)))
    (bufferToString [.arrayBuffer b, .string (js f.name)]) rt

/-- `bufToString(lx.utils.buffer.from(s, f), f)` is `s`. -/
def RoundTrips (objects : Objects E.Obj ε) (rt : Rt E) (f : TextFormat) (s : Str) : Prop :=
  ReturnsString (do
    let b ← bufferFrom (.string s) (.string (js f.name))
    bufToString objects b (.string (js f.name))) rt s.units

/-- On a string the two agree, the string taken as `binary`. -/
def CoherentText (objects : Objects E.Obj ε) (rt : Rt E) (f : TextFormat) (t : Str) : Prop :=
  SameString (bufToString objects (.string t) (.string (js f.name)))
    (do
      let b ← Polyfill.bufferFrom [.string t, .string (js "binary")]
      bufferToString [b, .string (js f.name)]) rt

theorem coherent_iff (objects : Objects E.Obj ε) (rt : Rt E) (f : TextFormat) (b : Bytes) :
    Coherent objects rt f b ↔ f = .utf8 ∧ b = tag := by
  simp only [Coherent, SameString, bufToString_arrayBuffer, bufferToString_arrayBuffer,
    exists_eq_left', encodeText_tag_iff]

theorem returnsString_bufferFrom (rt : Rt E) (s e : Str)
    (next : Value E.Obj → Call E.Obj ε (Value E.Obj)) (u : Units) :
    ReturnsString (Polyfill.bufferFrom [.string s, .string e] >>= next) rt u ↔
      ReturnsString (next (.arrayBuffer (decodeText (toCStringLen e) (toCStringLen s))))
        { rt with pending := some (.typeError "ArrayBuffer object expected") } u := by
  simp only [ReturnsString, Polyfill.bufferFrom, encodingArg, Value.newArrayBuffer,
    Call.string_bind, Call.toByteArray_bind, Call.op_bind, Call.pure_bind, run_string,
    run_toByteArray_string, result_after]

theorem roundTrips_eq (objects : Objects E.Obj ε) (rt : Rt E) (f : TextFormat) (s : Str) :
    RoundTrips objects rt f s ↔ latin1 tag = s.units := by
  rw [RoundTrips, bufferFrom, returnsString_bufferFrom, bufToString_arrayBuffer]

/-- The tag is no hex and no base64 text. -/
theorem not_canonical_tag {f : TextFormat} (h : f.Canonical (latin1 tag)) : f = .utf8 := by
  have bracket : (0x5B : UInt8) ∈ tag := by decide
  cases f with
  | utf8 => rfl
  | hex => exact absurd h.1 (by decide)
  | base64 =>
    obtain ⟨data, hd⟩ := h
    rw [latin1_injective hd] at bracket
    rcases Base64.known_of_mem_encodeToString _ bracket with h | h
    · exact absurd (by decide) h
    · exact absurd h (by decide)

theorem coherentText_iff (objects : Objects E.Obj ε) (rt : Rt E) (f : TextFormat) (t : Str) :
    CoherentText objects rt f t ↔ f = .utf8 ∧ t.units = latin1 tag := by
  have binary : ∀ str, decodeText (toCStringLen (js "binary")) str = str := by
    intro str
    rw [toCStringLen_js (by decide), decodeText, if_neg (by decide), if_neg (by decide)]
  have left : ∀ u, ReturnsString (bufToString objects (.string t) (.string (js f.name))) rt u ↔
      latin1 tag = u := by
    intro u
    rw [← bufToString_arrayBuffer objects _ (toCStringLen t) (.string (js f.name)) u]
    change ReturnsString (Polyfill.bufferFrom _ >>= _) rt u ↔ _
    rw [returnsString_bufferFrom, binary]
    rfl
  simp only [CoherentText, SameString, left, returnsString_bufferFrom, binary,
    bufferToString_arrayBuffer, exists_eq_left', encodeText_tag_iff]
  refine and_congr_right fun _ => ⟨fun h => ?_, fun h => ?_⟩
  · rw [← units_newStringLen_toCStringLen t, h, units_newStringLen_ascii tag_ascii]
  · exact toCStringLen_of_ascii tag_ascii h

/-- The wrapper agrees with `Buffer` on the one text that it gives for every buffer. -/
theorem bufToString_iff (E : Engine) (ε : Type) (objects : Objects E.Obj ε) (rt : Rt E)
    (f : TextFormat) :
    (∀ b, Coherent objects rt f b ↔ f = .utf8 ∧ b = tag) ∧
    (∀ s : Str, f.Canonical s.units →
      (RoundTrips objects rt f s ↔ f = .utf8 ∧ s.units = latin1 tag)) ∧
    (∀ t, CoherentText objects rt f t ↔ f = .utf8 ∧ t.units = latin1 tag) := by
  refine ⟨coherent_iff objects rt f, fun s canonical => ?_, coherentText_iff objects rt f⟩
  rw [roundTrips_eq]
  constructor
  · intro h
    rw [← h] at canonical
    exact ⟨not_canonical_tag canonical, h.symm⟩
  · exact fun h => h.2.symm

def noObjects : Objects plainEngine.Obj Empty := ⟨fun o => Empty.elim o, fun _ => none⟩

/-- The text that comes back. -/
theorem bufToString_tag : RoundTrips (E := plainEngine) noObjects plainRt .utf8 (.narrow tag) :=
  ((bufToString_iff plainEngine Empty noObjects plainRt .utf8).2.1 (.narrow tag)
    ⟨"[object ArrayBuffer]".toList, by decide⟩).mpr ⟨rfl, rfl⟩

/-- `bufToString` of the hex of one byte. -/
theorem bufToString_fails :
    ¬ Coherent (E := plainEngine) noObjects plainRt .hex [0x00] ∧
    ¬ RoundTrips (E := plainEngine) noObjects plainRt .hex (js "00") ∧
    ¬ CoherentText (E := plainEngine) noObjects plainRt .hex (js "a") := by
  rw [coherent_iff, roundTrips_eq, coherentText_iff]
  decide

end Prelude
