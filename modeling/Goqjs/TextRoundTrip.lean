import Goqjs.Encoding
import Goqjs.Buffers

/-!
# Text across the boundary

A string that goes out as bytes or as base64 and is read back is the string it
was, with its NULs and its unpaired surrogates.
-/

namespace Polyfill

open Quickjs Qjs

/-- The call returns a string with these units. -/
def ReturnsString {E : Engine} {ε : Type} (c : Call E.Obj ε (Value E.Obj)) (rt : Rt E)
    (u : Units) : Prop :=
  ∃ t, (run E c rt).result = some (.string t) ∧ t.units = u

theorem toCStringLen_js {s : String} (h : (ascii s).all (fun c => c.toNat < 0x80) = true) :
    toCStringLen (js s) = ascii s := by
  rw [js, toCStringLen, if_pos h]

/-- ASCII text goes into a string and comes out of it. -/
theorem toCStringLen_newStringLen_ascii {buf : Bytes} (h : ∀ c ∈ buf, c.toNat < 0x80) :
    toCStringLen (newStringLen buf) = buf :=
  (toCStringLen_latin1_iff (units_newStringLen_ascii h)).mpr h

variable {E : Engine} {ε : Type}

theorem returnsString_newString {rt : Rt E} {s : Str} :
    ReturnsString (pure (.newString (toCStringLen s)) : Call E.Obj ε (Value E.Obj)) rt s.units :=
  ⟨_, rfl, units_newStringLen_toCStringLen s⟩

theorem encode_decode (rt : Rt E) (s : Str) :
    ReturnsString (textEncoderEncode [.string s] >>= fun b => textDecoderDecode [b] :
      Call E.Obj ε (Value E.Obj)) rt s.units := by
  simp only [ReturnsString, textEncoderEncode, textDecoderDecode, Value.newArrayBuffer,
    Call.string_bind, Call.op_bind, Call.pure_bind, Call.toByteArray_bind, run_string,
    run_toByteArray]
  exact returnsString_newString

theorem from_toString_utf8 (rt : Rt E) (s : Str) :
    ReturnsString (bufferFrom [.string s, .string (js "utf8")] >>= fun b =>
      bufferToString [b, .string (js "utf8")] : Call E.Obj ε (Value E.Obj)) rt s.units := by
  simp only [ReturnsString, bufferFrom, encodingArg, Value.newArrayBuffer, Call.string_bind,
    Call.op_bind, Call.pure_bind, Call.toByteArray_bind, bufferToString, run_string,
    run_toByteArray, run_toByteArray_string, result_after,
    toCStringLen_js (show (ascii "utf8").all (fun c => c.toNat < 0x80) = true by decide)]
  exact returnsString_newString

theorem atob_btoa (rt : Rt E) (s : Str) :
    ReturnsString (btoa [.string s] >>= fun t => atob [t] : Call E.Obj ε (Value E.Obj)) rt
      s.units := by
  simp only [ReturnsString, btoa, atob, Value.newString, Call.string_bind, Call.op_bind,
    Call.pure_bind, run_string,
    toCStringLen_newStringLen_ascii (Base64.encodeToString_ascii _ _),
    Base64.decodeString_encodeToString, if_true]
  exact returnsString_newString

/-- Whatever a string holds, it survives each of the three ways out and back. -/
theorem text_round_trip (E : Engine) (ε : Type) (rt : Rt E) (s : Str) :
    ReturnsString (do
      let b ← textEncoderEncode [.string s]
      textDecoderDecode [b] : Call E.Obj ε (Value E.Obj)) rt s.units ∧
    ReturnsString (do
      let b ← bufferFrom [.string s, .string (js "utf8")]
      bufferToString [b, .string (js "utf8")] : Call E.Obj ε (Value E.Obj)) rt s.units ∧
    ReturnsString (do
      let t ← btoa [.string s]
      atob [t] : Call E.Obj ε (Value E.Obj)) rt s.units :=
  ⟨encode_decode rt s, from_toString_utf8 rt s, atob_btoa rt s⟩

end Polyfill
