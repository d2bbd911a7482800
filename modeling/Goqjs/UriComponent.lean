import Goqjs.Bindings
import Goqjs.Percent

/-!
# encodeURIComponent

The engine writes a component unit by unit: pairs of surrogates are joined, and a code point that
may not stand is written as the escapes of its UTF-8.
-/

namespace Quickjs

open Qjs Percent

/-- `isURIUnescaped` with `isComponent` set. -/
def isURIUnescaped (c : Nat) : Bool :=
  c < 0x100 &&
    ((0x61 ≤ c && c ≤ 0x7A) || (0x41 ≤ c && c ≤ 0x5A) || (0x30 ≤ c && c ≤ 0x39) ||
      (ascii "-_.!~*'()").contains (.ofNat c))

/-- `encodeURI_hex` of a byte. -/
def encodeURIHex (c : Nat) : Units :=
  [percent, Hex.upper (c >>> 4 &&& 15), Hex.upper (c &&& 15)].map fun b => .ofNat b.toNat

/-- The escapes of one code point. -/
def encodeURIPoint (c : Nat) : Units :=
  if c < 0x80 then encodeURIHex c
  else
    (if c < 0x800 then encodeURIHex (c >>> 6 ||| 0xC0)
      else
        (if c < 0x10000 then encodeURIHex (c >>> 12 ||| 0xE0)
          else encodeURIHex (c >>> 18 ||| 0xF0) ++ encodeURIHex (c >>> 12 &&& 0x3F ||| 0x80)) ++
          encodeURIHex (c >>> 6 &&& 0x3F ||| 0x80)) ++
      encodeURIHex (c &&& 0x3F ||| 0x80)

/-- `js_global_encodeURI` with `isComponent` set; `none` where it throws a `URIError`. -/
def encodeURIComponent : Units → Option Units
  | [] => some []
  | c :: rest =>
    if isURIUnescaped c.toNat then (encodeURIComponent rest).map (c :: ·)
    else if isLoSurrogate c.toNat then none
    else if isHiSurrogate c.toNat then
      match rest with
      | [] => none
      | c1 :: after =>
        if !isLoSurrogate c1.toNat then none
        else
          (encodeURIComponent after).map
            (encodeURIPoint (fromSurrogate c.toNat c1.toNat) ++ ·)
    else (encodeURIComponent rest).map (encodeURIPoint c.toNat ++ ·)

/-- The same on bytes. -/
def component : Coding where
  escaped c := !isURIUnescaped c.toNat
  mayEscape _ := true
  mayStand _ := true
  form := false

theorem encodeURIHex_eq {c : UInt8} (h : component.escaped c = true) :
    encodeURIHex c.toNat = latin1 (component.encodeByte c) := by
  have high : c.toNat >>> 4 &&& 15 = c.toNat / 16 := by
    have small := c.toNat_lt
    rw [Nat.shiftRight_eq_div_pow, show (15 : Nat) = 2 ^ 4 - 1 from rfl,
      Nat.and_two_pow_sub_one_eq_mod]
    omega
  have low : c.toNat &&& 15 = c.toNat % 16 := Nat.and_two_pow_sub_one_eq_mod _ 4
  have notForm : (component.form && decide (c = space)) = false := rfl
  rw [encodeURIHex, high, low, Coding.encodeByte, if_pos h, notForm]
  rfl

theorem escaped_of_high {n : Nat} (high : 0x80 ≤ n) : isURIUnescaped n = false := by
  by_cases small : n < 256
  · have all : ∀ n : Fin 256, 0x80 ≤ n.1 → isURIUnescaped n.1 = false := by
      decide +kernel
    exact all ⟨n, small⟩ high
  · simp only [isURIUnescaped, small, decide_false, Bool.false_and]

theorem encodeURIHex_of_lt {n : Nat} (small : n < 256) (h : isURIUnescaped n = false) :
    encodeURIHex n = latin1 (component.encodeByte (.ofNat n)) := by
  have eq := toNat_ofNat_of_lt small
  have escaped : component.escaped (.ofNat n) = true := by
    change (!isURIUnescaped (UInt8.ofNat n).toNat) = true
    rw [eq, h]
    rfl
  rw [← encodeURIHex_eq escaped, eq]

theorem latin1_encode_cons (c : UInt8) (s : Bytes) :
    latin1 (component.encode (c :: s)) =
      latin1 (component.encodeByte c) ++ latin1 (component.encode s) := by
  simp [latin1, Coding.encode]

/-- An escaped code point is written as the bytes of its UTF-8. -/
theorem encodeURIPoint_eq {c : Nat} (valid : c < 0x110000) (h : isURIUnescaped c = false) :
    encodeURIPoint c = latin1 (component.encode (utf8Encode c)) := by
  have byte {a m : Nat} (ha : a < 256) (hm : m < 256) (high : 0x80 ≤ m) :
      encodeURIHex (a ||| m) = latin1 (component.encodeByte (.ofNat (a ||| m))) :=
    encodeURIHex_of_lt (Nat.or_lt_two_pow (n := 8) ha hm)
      (escaped_of_high (high.trans Nat.right_le_or))
  have tail (n : Nat) : encodeURIHex (n &&& 0x3F ||| 0x80) =
      latin1 (component.encodeByte (.ofNat (n &&& 0x3F ||| 0x80))) :=
    byte (Nat.lt_of_le_of_lt Nat.and_le_right (by decide)) (by decide) (by decide)
  have nil : latin1 (component.encode []) = [] := rfl
  have shift (i : Nat) : c >>> i = c / 2 ^ i := Nat.shiftRight_eq_div_pow c i
  unfold encodeURIPoint utf8Encode
  split_ifs with one two three
  · rw [latin1_encode_cons, nil, List.append_nil, encodeURIHex_of_lt (by omega) h]
  · rw [latin1_encode_cons, latin1_encode_cons, nil, List.append_nil, tail,
      byte (by rw [shift]; omega) (by decide) (by decide)]
  · rw [latin1_encode_cons, latin1_encode_cons, latin1_encode_cons, nil, List.append_nil, tail, tail,
      byte (by rw [shift]; omega) (by decide) (by decide), List.append_assoc]
  · rw [latin1_encode_cons, latin1_encode_cons, latin1_encode_cons, latin1_encode_cons, nil,
      List.append_nil, tail, tail, tail, byte (by rw [shift]; omega) (by decide) (by decide),
      List.append_assoc, List.append_assoc]

theorem latin1_encode_append (s t : Bytes) : latin1 (component.encode (s ++ t)) =
    latin1 (component.encode s) ++ latin1 (component.encode t) := by
  simp [latin1, Coding.encode]

theorem latin1_encode_standing {c : UInt16} (h : isURIUnescaped c.toNat = true) :
    latin1 (component.encode (utf8Encode c.toNat)) = [c] := by
  have low : c.toNat < 0x80 := by
    by_contra high
    rw [escaped_of_high (by omega)] at h
    cases h
  have eq := toNat_ofNat_of_lt (show c.toNat < 256 by omega)
  have plain : ¬ component.escaped (.ofNat c.toNat) = true := by
    change ¬ (!isURIUnescaped (UInt8.ofNat c.toNat).toNat) = true
    rw [eq, h]
    decide
  rw [utf8Encode_one low, latin1_encode_cons, Coding.encodeByte, if_neg plain]
  change [UInt16.ofNat (UInt8.ofNat c.toNat).toNat] = [c]
  rw [eq, UInt16.ofNat_toNat]

/-- A unit that is no surrogate is written alone. -/
theorem encodeURIComponent_cons {c : UInt16} {rest : Units} {text : Bytes}
    (h : c.toNat < 0xD800 ∨ 0xDFFF < c.toNat)
    (tail : encodeURIComponent rest = some (latin1 (component.encode text))) :
    encodeURIComponent (c :: rest) =
      some (latin1 (component.encode (utf8Encode c.toNat ++ text))) := by
  have small := c.toNat_lt
  have notLow : ¬ isLoSurrogate c.toNat = true := by
    rw [isLoSurrogate_iff]
    omega
  have notHigh : ¬ isHiSurrogate c.toNat = true := by
    rw [isHiSurrogate_iff]
    omega
  rw [encodeURIComponent.eq_def, latin1_encode_append]
  simp only [tail, Option.map_some, if_neg notLow, if_neg notHigh]
  split_ifs with stands
  · rw [latin1_encode_standing stands]
    rfl
  · rw [encodeURIPoint_eq (by omega) (by simpa using stands)]

/-- A string without single surrogates is written as its UTF-8, escaped byte by byte. -/
theorem encodeURIComponent_eq (s : Units) (whole : ∀ c ∈ codePoints s, c < 0xD800 ∨ 0xDFFF < c) :
    encodeURIComponent s = some (latin1 (component.encode ((codePoints s).flatMap utf8Encode))) := by
  induction s using codePoints.induct with
  | case1 => rfl
  | case2 c =>
    have alone : encodeURIComponent [] = some (latin1 (component.encode [])) := rfl
    simpa [codePoints] using encodeURIComponent_cons (whole _ (by simp [codePoints])) alone
  | case3 c c1 rest pair ih =>
    obtain ⟨hi, lo⟩ := Bool.and_eq_true_iff.mp pair
    have range := fromSurrogate_range c.toNat c1.toNat
    have highRange := (isHiSurrogate_iff _).mp hi
    have notLow : ¬ isLoSurrogate c.toNat = true := by
      rw [isLoSurrogate_iff]
      omega
    have escaped : ¬ isURIUnescaped c.toNat = true := by
      rw [escaped_of_high (by omega)]
      decide
    simp only [codePoints, if_pos pair] at whole ⊢
    have tail := ih fun d hd => whole d (List.mem_cons_of_mem _ hd)
    rw [encodeURIComponent.eq_def, List.flatMap_cons, latin1_encode_append]
    simp only [if_neg escaped, if_neg notLow, if_pos hi, lo, tail, Option.map_some]
    rw [encodeURIPoint_eq range.2 (escaped_of_high (by omega))]
    rfl
  | case4 c c1 rest single ih =>
    simp only [codePoints, if_neg single] at whole ⊢
    rw [List.flatMap_cons]
    exact encodeURIComponent_cons (whole _ List.mem_cons_self)
      (ih fun d hd => whole d (List.mem_cons_of_mem _ hd))

/-- The component of a Unicode text. -/
theorem encodeURIComponent_of_utf16 {s : Str} {text : List Char} (h : s.units = utf16 text) :
    encodeURIComponent s.units = some (latin1 (component.encode (toCStringLen s))) := by
  rw [toCStringLen_eq]
  refine encodeURIComponent_eq s.units fun c hc => ?_
  rw [h, codePoints_utf16] at hc
  obtain ⟨d, _, rfl⟩ := List.mem_map.mp hc
  exact char_not_surrogate d

end Quickjs
