import Mathlib.Data.Option.Basic
import Goqjs.JsonReading

/-!
# The lexer and the decoded text

Two buffers without encoding errors that decode to the same units have the same tokens. They can
still differ: a surrogate pair may be written as one sequence or as two.
-/

namespace Quickjs

open Binary64

/-- Both fail with one message, or both succeed. -/
inductive Alike {α β : Type} (R : α → β → Prop) : Except String α → Except String β → Prop where
  | error (e : String) : Alike R (.error e) (.error e)
  | ok {a : α} {b : β} (h : R a b) : Alike R (.ok a) (.ok b)

/-- The same result, and what is left of the inputs is related. -/
def Front {α β γ : Type} (R : β → γ → Prop) (x : α × β) (y : α × γ) : Prop :=
  x.1 = y.1 ∧ R x.2 y.2

theorem Alike.bind {α β γ δ : Type} {R : α → β → Prop} {S : γ → δ → Prop} {x : Except String α}
    {y : Except String β} {f : α → Except String γ} {g : β → Except String δ} (h : Alike R x y)
    (next : ∀ a b, x = .ok a → R a b → Alike S (f a) (g b)) : Alike S (x >>= f) (y >>= g) := by
  cases h with
  | error e => exact .error e
  | ok related => exact next _ _ rfl related

structure Decodes (p : Bytes) (u : Units) : Prop where
  errorFree : ErrorFree p
  units : utf8DecodeBuf16 p = u

/-- The first sequence of a buffer and the first units of its text. -/
inductive DecodesView : Bytes → Units → Prop where
  | nil : DecodesView [] []
  | ascii {c : UInt8} {p : Bytes} {u : Units} (low : c.toNat < 0x80) (rest : Decodes p u) :
      DecodesView (c :: p) (UInt16.ofNat c.toNat :: u)
  | high {c : Nat} {p : Bytes} {u : Units} (valid : c < 0x110000) (large : 0x80 ≤ c)
      (rest : Decodes p u) : DecodesView (utf8Encode c ++ p) (wordsOf c ++ u)

theorem Decodes.view {p : Bytes} {u : Units} (h : Decodes p u) : DecodesView p u := by
  obtain ⟨errorFree, rfl⟩ := h
  induction p using sequences_induction with
  | nil => exact .nil
  | codePoint c p valid ih =>
    have tail : ErrorFree p := (Cuts.codePoint valid (.done p)).errorFree_iff.mp errorFree
    have units : utf8DecodeBuf16 (utf8Encode c ++ p) = wordsOf c ++ utf8DecodeBuf16 p := by
      rw [utf8DecodeBuf16, sequences_encode valid, List.flatMap_cons, ← utf8DecodeBuf16]
    rw [units]
    by_cases low : c < 0x80
    · have byte := toNat_ofNat_of_lt (show c < 256 by omega)
      rw [utf8Encode_one low, wordsOf, if_neg (by omega)]
      have view : DecodesView (.ofNat c :: p)
          (UInt16.ofNat (UInt8.ofNat c).toNat :: utf8DecodeBuf16 p) :=
        .ascii (by omega) ⟨tail, rfl⟩
      rwa [byte] at view
    · exact .high valid (by omega) ⟨tail, rfl⟩
  | error lead p notAscii hs ih =>
    have bad := errorFree (0xFFFD, true) (by
      rw [sequences_error hs]
      exact List.mem_cons_self)
    cases bad

theorem wordsOf_high {c : Nat} (valid : c < 0x110000) (large : 0x80 ≤ c) :
    ∀ x ∈ wordsOf c, 0x80 ≤ x.toNat := by
  intro x hx
  rw [wordsOf] at hx
  split_ifs at hx with wide
  · rw [getHiSurrogate_eq, getLoSurrogate_eq] at hx
    simp only [List.mem_cons, List.not_mem_nil, or_false] at hx
    rcases hx with rfl | rfl <;> rw [toNat_ofNat16_of_lt (by omega)] <;> omega
  · obtain rfl := List.mem_singleton.mp hx
    rw [toNat_ofNat16_of_lt (by omega)]
    exact large

theorem wordsOf_cons (c : Nat) : ∃ x w, wordsOf c = x :: w := by
  rw [wordsOf]
  split_ifs
  · exact ⟨_, _, rfl⟩
  · exact ⟨_, _, rfl⟩

/-- The first unit of a text that starts above ASCII. -/
theorem high_unit {c : Nat} (valid : c < 0x110000) (large : 0x80 ≤ c) (u : Units) :
    ∃ x w, wordsOf c ++ u = x :: w ∧ 0x80 ≤ x.toNat := by
  obtain ⟨x, w, words⟩ := wordsOf_cons c
  refine ⟨x, w ++ u, by rw [words, List.cons_append], ?_⟩
  apply wordsOf_high valid large
  rw [words]
  exact List.mem_cons_self

/-- The first byte of a sequence above ASCII, and what `utf8_decode` makes of it. -/
theorem high_byte {c : Nat} (valid : c < 0x110000) (large : 0x80 ≤ c) (p : Bytes) :
    ∃ lead q, utf8Encode c ++ p = lead :: q ∧ 0x80 ≤ lead.toNat ∧
      utf8Decode lead q = (c, p) ∧ (p.length == q.length) = false := by
  obtain ⟨lead, more, bytes, -⟩ := utf8Cutter_inverts valid
  have high : 0x80 ≤ lead.toNat := by
    apply utf8Encode_notAscii valid large
    change utf8Encode c = lead :: more at bytes
    rw [bytes]
    exact List.mem_cons_self
  have whole : lead :: (more ++ p) = utf8Encode c ++ p := by
    change utf8Encode c = lead :: more at bytes
    rw [bytes, List.cons_append]
  have step := sequenceAt_encode valid whole
  rw [sequenceAt, if_neg (by omega), utf8DecodeLen_eq] at step
  simp only [Prod.mk.injEq] at step
  obtain ⟨⟨value, shorter⟩, rest⟩ := step
  rw [rest] at shorter
  exact ⟨lead, more ++ p, whole.symm, high, Prod.ext value rest, shorter⟩

theorem Cuts.length_decode_le {p rest : Bytes} (h : Cuts p rest) :
    (utf8DecodeBuf16 rest).length ≤ (utf8DecodeBuf16 p).length := by
  induction h with
  | done => exact Nat.le_refl _
  | @codePoint c p rest valid more ih =>
    rw [utf8DecodeBuf16.eq_def (utf8Encode c ++ p), sequences_encode valid, List.flatMap_cons,
      ← utf8DecodeBuf16, List.length_append]
    omega

theorem fromHex_high {n : Nat} (h : 0x80 ≤ n) : fromHex n = none := by
  cases hex : fromHex n with
  | none => rfl
  | some d =>
    have low := fromHex_ascii hex
    omega

theorem jsonShortEscape_high {n : Nat} (h : 0x80 ≤ n) : jsonShortEscape n = none := by
  cases short : jsonShortEscape n with
  | none => rfl
  | some x =>
    have low := jsonShortEscape_ascii short
    omega

theorem jsonHexDigits_decodes (n c : Nat) {p : Bytes} {u : Units} (h : Decodes p u) :
    Alike (Front Decodes) (jsonHexDigits UInt8.toNat n c p) (jsonHexDigits UInt16.toNat n c u) := by
  induction n generalizing c p u with
  | zero => exact .ok ⟨rfl, h⟩
  | succ n ih =>
    cases h.view with
    | nil => exact .error _
    | @ascii d p u low rest =>
      have unit := toNat_ofNat16_of_lt (show d.toNat < 65536 by omega)
      rw [jsonHexDigits, jsonHexDigits, unit]
      cases fromHex d.toNat with
      | none => exact .error _
      | some x => exact ih _ rest
    | @high d p u valid large rest =>
      obtain ⟨lead, q, bytes, byte, -⟩ := high_byte valid large p
      obtain ⟨x, w, units, unit⟩ := high_unit valid large u
      rw [bytes, units, jsonHexDigits, jsonHexDigits, fromHex_high byte, fromHex_high unit]
      exact .error _

theorem jsonEscape_decodes {p : Bytes} {u : Units} (h : Decodes p u) :
    Alike (Front Decodes) (jsonEscape UInt8.toNat p) (jsonEscape UInt16.toNat u) := by
  cases h.view with
  | nil => exact .error _
  | @ascii d p u low rest =>
    have unit := toNat_ofNat16_of_lt (show d.toNat < 65536 by omega)
    rw [jsonEscape, jsonEscape, unit]
    split_ifs with hex
    · exact jsonHexDigits_decodes 4 0 rest
    · cases jsonShortEscape d.toNat with
      | none => exact .error _
      | some x => exact .ok ⟨rfl, rest⟩
  | @high d p u valid large rest =>
    obtain ⟨lead, q, bytes, byte, -⟩ := high_byte valid large p
    obtain ⟨x, w, units, unit⟩ := high_unit valid large u
    rw [bytes, units, jsonEscape, jsonEscape, if_neg (by omega), if_neg (by omega),
      jsonShortEscape_high byte, jsonShortEscape_high unit]
    exact .error _

/-- The loop of `json_parse_string` on units: nothing is left to decode. -/
def scanString : Nat → Units → Except String (Units × Units)
  | 0, _ => .error endOfInput
  | _ + 1, [] => .error endOfInput
  | n + 1, x :: u =>
    if x.toNat = 0x22 then .ok ([], u)
    else if x.toNat < 0x20 then .error "Bad control character in string literal"
    else if x.toNat = 0x5C then do
      let (y, u) ← jsonEscape UInt16.toNat u
      let (s, u) ← scanString n u
      return (wordsOf y ++ s, u)
    else do
      let (s, u) ← scanString n u
      return (x :: s, u)

theorem scanString_high (n : Nat) {w : Units} (high : ∀ x ∈ w, 0x80 ≤ x.toNat) (u : Units) :
    scanString (w.length + n) (w ++ u) = (do
      let (s, rest) ← scanString n u
      return (w ++ s, rest)) := by
  induction w with
  | nil =>
    rw [List.length_nil, Nat.zero_add, List.nil_append]
    cases scanString n u <;> rfl
  | cons x w ih =>
    have here := high x List.mem_cons_self
    have tail := ih fun y hy => high y (List.mem_cons_of_mem _ hy)
    rw [List.length_cons, Nat.succ_add, List.cons_append, scanString, if_neg (by omega),
      if_neg (by omega), if_neg (by omega), tail]
    cases scanString n u <;> rfl

/-- The same on bytes, where a sequence stands for the units of its code point. -/
theorem jsonParseStringFrom_high (n : Nat) {c : Nat} (valid : c < 0x110000) (large : 0x80 ≤ c)
    (p : Bytes) :
    jsonParseStringFrom (n + 1) (utf8Encode c ++ p) = (do
      let (s, rest) ← jsonParseStringFrom n p
      return (wordsOf c ++ s, rest)) := by
  obtain ⟨lead, q, bytes, byte, value, shorter⟩ := high_byte valid large p
  rw [bytes, jsonParseStringFrom, if_neg (by omega), if_neg (by omega), if_neg (by omega),
    if_pos byte]
  simp only [value, shorter]
  rfl

theorem jsonParseStringFrom_decodes {n m : Nat} {p : Bytes} {u : Units} (h : Decodes p u)
    (hn : p.length ≤ n) (hm : u.length ≤ m) :
    Alike (Front Decodes) (jsonParseStringFrom n p) (scanString m u) := by
  induction n generalizing m p u with
  | zero =>
    obtain rfl := List.length_eq_zero_iff.mp (Nat.le_zero.mp hn)
    obtain rfl : [] = u := h.units
    cases m <;> exact .error _
  | succ n ih =>
    cases h.view with
    | nil => cases m <;> exact .error _
    | @ascii c p u low rest =>
      have unit := toNat_ofNat16_of_lt (show c.toNat < 65536 by omega)
      have word : wordsOf c.toNat = [UInt16.ofNat c.toNat] := if_neg (by omega)
      simp only [List.length_cons] at hn hm
      cases m with
      | zero => omega
      | succ m =>
        simp only [jsonParseStringFrom, scanString, unit, if_neg (show ¬ 0x80 ≤ c.toNat by omega)]
        split_ifs with quote control backslash
        · exact .ok ⟨rfl, rest⟩
        · exact .error _
        · apply (jsonEscape_decodes rest).bind
          rintro ⟨x, q⟩ ⟨_, w⟩ escape ⟨⟨⟩, after⟩
          change Decodes q w at after
          have cuts := jsonEscape_cuts escape
          have shorter : q.length ≤ p.length := cuts.length_le
          have fewer : w.length ≤ u.length := by
            rw [← rest.units, ← after.units]
            exact cuts.length_decode_le
          apply (ih after (by omega) (by omega)).bind
          rintro ⟨s, q⟩ ⟨_, w⟩ - ⟨⟨⟩, after⟩
          exact .ok ⟨rfl, after⟩
        · apply (ih rest (by omega) (by omega)).bind
          rintro ⟨s, q⟩ ⟨_, w⟩ - ⟨⟨⟩, after⟩
          exact .ok ⟨by rw [word]; rfl, after⟩
    | @high c p u valid large rest =>
      have shorter : p.length < (utf8Encode c ++ p).length := by
        obtain ⟨lead, more, bytes, -⟩ := utf8Cutter_inverts valid
        change utf8Encode c = lead :: more at bytes
        rw [bytes, List.cons_append, List.length_cons, List.length_append]
        omega
      rw [List.length_append] at hm
      obtain ⟨k, rfl⟩ := Nat.exists_eq_add_of_le (Nat.le_of_add_right_le hm)
      rw [jsonParseStringFrom_high n valid large, scanString_high k (wordsOf_high valid large)]
      apply (ih rest (by omega) (by omega)).bind
      rintro ⟨s, q⟩ ⟨_, w⟩ - ⟨⟨⟩, after⟩
      exact .ok ⟨rfl, after⟩

/-- No encoding errors, and one text. -/
def Same (p p' : Bytes) : Prop := ∃ u, Decodes p u ∧ Decodes p' u

inductive SameView : Bytes → Bytes → Prop where
  | nil : SameView [] []
  | ascii {c : UInt8} {p p' : Bytes} (low : c.toNat < 0x80) (rest : Same p p') :
      SameView (c :: p) (c :: p')
  | high {c c' : UInt8} {p p' : Bytes} (byte : 0x80 ≤ c.toNat) (byte' : 0x80 ≤ c'.toNat)
      (errorFree : ErrorFree (c :: p)) (errorFree' : ErrorFree (c' :: p')) :
      SameView (c :: p) (c' :: p')

theorem Same.view {p p' : Bytes} (h : Same p p') : SameView p p' := by
  obtain ⟨u, first, second⟩ := h
  cases first.view with
  | nil =>
    generalize units : [] = u at second
    cases second.view with
    | nil => exact .nil
    | ascii low rest => cases units
    | high valid large rest =>
      obtain ⟨x, w, words, -⟩ := high_unit valid large _
      rw [words] at units
      cases units
  | @ascii c p u low rest =>
    generalize units : UInt16.ofNat c.toNat :: u = u' at second
    have unit := toNat_ofNat16_of_lt (show c.toNat < 65536 by omega)
    cases second.view with
    | nil => cases units
    | @ascii d q w low' rest' =>
      obtain ⟨heads, rfl⟩ := List.cons.inj units
      have heads := congrArg UInt16.toNat heads
      rw [unit, toNat_ofNat16_of_lt (by omega)] at heads
      obtain rfl := UInt8.toNat_inj.mp heads
      exact .ascii low ⟨u, rest, rest'⟩
    | high valid large rest' =>
      obtain ⟨x, w, words, byte⟩ := high_unit valid large _
      rw [words] at units
      obtain ⟨rfl, -⟩ := List.cons.inj units
      omega
  | @high c p u valid large rest =>
    generalize units : wordsOf c ++ u = u' at second
    obtain ⟨x, w, words, unit⟩ := high_unit valid large u
    cases second.view with
    | nil =>
      rw [words] at units
      cases units
    | @ascii d q w' low rest' =>
      rw [words] at units
      obtain ⟨rfl, -⟩ := List.cons.inj units
      rw [toNat_ofNat16_of_lt (by omega)] at unit
      omega
    | @high d q w' valid' large' rest' =>
      obtain ⟨lead, r, bytes, byte, -⟩ := high_byte valid large p
      obtain ⟨lead', r', bytes', byte', -⟩ := high_byte valid' large' q
      have errorFree := first.errorFree
      have errorFree' := second.errorFree
      rw [bytes] at errorFree ⊢
      rw [bytes'] at errorFree' ⊢
      exact .high byte byte' errorFree errorFree'

theorem Alike.same {α : Type} {x x' : Except String (α × Bytes)} {y : Except String (α × Units)}
    (h : Alike (Front Decodes) x y) (h' : Alike (Front Decodes) x' y) :
    Alike (Front Same) x x' := by
  cases h with
  | error e =>
    cases h' with
    | error _ => exact .error e
  | ok related =>
    cases h' with
    | ok related' => exact .ok ⟨related.1.trans related'.1.symm, _, related.2, related'.2⟩

theorem jsonParseString_same {p p' : Bytes} (h : Same p p') :
    Alike (Front Same) (jsonParseString p) (jsonParseString p') := by
  obtain ⟨u, first, second⟩ := h
  have scanned := jsonParseStringFrom_decodes first (Nat.le_refl _) (Nat.le_refl u.length)
  exact scanned.same (jsonParseStringFrom_decodes second (Nat.le_refl _) (Nat.le_refl u.length))

/-- A test of characters that none above ASCII passes. -/
theorem Same.span {p p' : Bytes} {q : UInt8 → Bool} (low : ∀ c, q c = true → c.toNat < 0x80)
    (h : Same p p') : p.takeWhile q = p'.takeWhile q ∧ Same (p.dropWhile q) (p'.dropWhile q) := by
  induction p generalizing p' with
  | nil =>
    cases h.view with
    | nil => exact ⟨rfl, h⟩
  | cons c p ih =>
    cases h.view with
    | ascii small rest =>
      obtain ⟨text, tail⟩ := ih rest
      simp only [List.takeWhile_cons, List.dropWhile_cons]
      split_ifs
      · exact ⟨by rw [text], tail⟩
      · exact ⟨rfl, h⟩
    | @high c c' p p' byte byte' errorFree errorFree' =>
      have stop : q c ≠ true := fun more => by
        have := low c more
        omega
      have stop' : q c' ≠ true := fun more => by
        have := low c' more
        omega
      simp only [List.takeWhile_cons, List.dropWhile_cons, if_neg stop, if_neg stop']
      exact ⟨trivial, h⟩

theorem isDigit_high {c : UInt8} (h : 0x80 ≤ c.toNat) : isDigit c = false := by
  simp only [isDigit, Bool.and_eq_false_iff, decide_eq_false_iff_not]
  omega

theorem Same.digit {p p' : Bytes} (h : Same p p') : isDigit (peek p) = isDigit (peek p') := by
  cases h.view with
  | nil => rfl
  | ascii low rest => rfl
  | high byte byte' errorFree errorFree' => exact (isDigit_high byte).trans (isDigit_high byte').symm

/-- The test for a zero in front of a digit. -/
theorem Same.zero {p p' : Bytes} (h : Same p p') :
    (decide ((peek p).toNat = 0x30) && isDigit (peek p.tail)) =
      (decide ((peek p').toNat = 0x30) && isDigit (peek p'.tail)) := by
  cases h.view with
  | nil => rfl
  | @ascii c p p' low rest =>
    change (_ && isDigit (peek p)) = (_ && isDigit (peek p'))
    rw [rest.digit]
    rfl
  | @high c c' p p' byte byte' errorFree errorFree' =>
    have other : decide (c.toNat = 0x30) = false := decide_eq_false (by omega)
    have other' : decide (c'.toNat = 0x30) = false := decide_eq_false (by omega)
    change (decide (c.toNat = 0x30) && _) = (decide (c'.toNat = 0x30) && _)
    rw [other, other', Bool.false_and, Bool.false_and]

theorem digits_same {p p' : Bytes} (h : Same p p') :
    Front Same (digits p) (digits p') := h.span isDigit_ascii

theorem jsonSign_same {p p' : Bytes} (h : Same p p') :
    Front Same (jsonSign p) (jsonSign p') := by
  cases h.view with
  | nil => exact ⟨rfl, h⟩
  | @ascii c p p' low rest =>
    simp only [jsonSign]
    split_ifs
    · exact ⟨rfl, rest⟩
    · exact ⟨rfl, h⟩
  | @high c c' p p' byte byte' errorFree errorFree' =>
    rw [jsonSign, jsonSign, if_neg (by omega), if_neg (by omega)]
    exact ⟨rfl, h⟩

theorem jsonFraction_same {p p' : Bytes} (h : Same p p') :
    Alike (Front Same) (jsonFraction p) (jsonFraction p') := by
  cases h.view with
  | nil => exact .ok ⟨rfl, h⟩
  | @ascii c p p' low rest =>
    obtain ⟨text, tail⟩ := digits_same rest
    simp only [jsonFraction, rest.digit, text]
    split_ifs
    · exact .error _
    · exact .ok ⟨rfl, tail⟩
    · exact .ok ⟨rfl, h⟩
  | @high c c' p p' byte byte' errorFree errorFree' =>
    rw [jsonFraction, jsonFraction, if_neg (by omega), if_neg (by omega)]
    exact .ok ⟨rfl, h⟩

theorem jsonExponent_same {p p' : Bytes} (h : Same p p') :
    Alike (Front Same) (jsonExponent p) (jsonExponent p') := by
  cases h.view with
  | nil => exact .ok ⟨rfl, h⟩
  | @ascii c p p' low rest =>
    obtain ⟨sign, signed⟩ := jsonSign_same rest
    obtain ⟨text, tail⟩ := digits_same signed
    simp only [jsonExponent, signed.digit, sign, text]
    split_ifs
    · exact .error _
    · exact .ok ⟨rfl, tail⟩
    · exact .ok ⟨rfl, h⟩
  | @high c c' p p' byte byte' errorFree errorFree' =>
    rw [jsonExponent, jsonExponent, if_neg (by omega), if_neg (by omega)]
    exact .ok ⟨rfl, h⟩

theorem jsonParseNumber_same {p p' : Bytes} (h : Same p p') :
    Alike (Front Same) (jsonParseNumber p) (jsonParseNumber p') := by
  obtain ⟨sign, signed⟩ := jsonSign_same h
  obtain ⟨int, rest⟩ := digits_same signed
  simp only [jsonParseNumber, signed.digit, signed.zero, sign, int]
  split_ifs
  · exact .error _
  · exact .error _
  · apply (jsonFraction_same rest).bind
    rintro ⟨fraction, q⟩ ⟨_, q'⟩ - ⟨⟨⟩, rest⟩
    apply (jsonExponent_same rest).bind
    rintro ⟨exponent, q⟩ ⟨_, q'⟩ - ⟨⟨⟩, rest⟩
    exact .ok ⟨rfl, rest⟩

theorem isIdentFirst_high {c : UInt8} (h : 0x80 ≤ c.toNat) : isIdentFirst c = false := by
  simp only [isIdentFirst, Bool.or_eq_false_iff, Bool.and_eq_false_iff, decide_eq_false_iff_not]
  omega

/-- Outside strings nothing above ASCII is accepted. -/
theorem jsonNextToken_high (strtod : Bytes → Double) {c : UInt8} {p : Bytes} (h : 0x80 ≤ c.toNat)
    (errorFree : ErrorFree (c :: p)) :
    jsonNextToken strtod (c :: p) = .error "Unexpected token '\\u%04x' in JSON" := by
  have minus : decide (c.toNat = 0x2D) = false := decide_eq_false (by omega)
  have zero : decide (c.toNat = 0x30) = false := decide_eq_false (by omega)
  rw [jsonNextToken, if_neg (by omega), if_neg (by omega), isIdentFirst_high h, minus, zero,
    isDigit_high h, if_pos h]
  rcases utf8Decode_cases h p with ⟨d, q, valid, large, bytes, value, shorter⟩ | ⟨-, bad⟩
  · rw [value, shorter]
    rfl
  · exact absurd errorFree bad

theorem jsonNextToken_same (strtod : Bytes → Double) {p p' : Bytes} (h : Same p p') :
    Alike (Option.Rel (Front Same)) (jsonNextToken strtod p) (jsonNextToken strtod p') := by
  induction p generalizing p' with
  | nil =>
    cases h.view with
    | nil => exact .ok .none
  | cons c p ih =>
    cases h.view with
    | @ascii c p p' low rest =>
      obtain ⟨name, after⟩ := rest.span isIdentContinue_ascii
      simp only [jsonNextToken, rest.digit, name, if_neg (show ¬ 0x80 ≤ c.toNat by omega)]
      split_ifs
      · apply (jsonParseString_same rest).bind
        rintro ⟨s, q⟩ ⟨_, q'⟩ - ⟨⟨⟩, rest⟩
        exact .ok (.some ⟨rfl, rest⟩)
      · exact ih rest
      · exact .ok (.some ⟨rfl, after⟩)
      · exact .error _
      · exact .error _
      · apply (jsonParseNumber_same h).bind
        rintro ⟨text, q⟩ ⟨_, q'⟩ - ⟨⟨⟩, rest⟩
        exact .ok (.some ⟨rfl, rest⟩)
      · exact .ok (.some ⟨rfl, rest⟩)
    | high byte byte' errorFree errorFree' =>
      rw [jsonNextToken_high strtod byte errorFree, jsonNextToken_high strtod byte' errorFree']
      exact .error _

theorem jsonTokens_same (strtod : Bytes → Double) (n : Nat) {p p' : Bytes} (bound : p.length ≤ n)
    (h : Same p p') : jsonTokens strtod p = jsonTokens strtod p' := by
  induction n generalizing p p' with
  | zero =>
    obtain rfl := List.length_eq_zero_iff.mp (Nat.le_zero.mp bound)
    cases h.view with
    | nil => rfl
  | succ n ih =>
    have step := jsonNextToken_same strtod h
    rw [jsonTokens_eq strtod p, jsonTokens_eq strtod p']
    generalize found : jsonNextToken strtod p = x at step
    generalize jsonNextToken strtod p' = y at step
    cases step with
    | error e => rfl
    | ok related =>
      cases related with
      | none => rfl
      | some front =>
        obtain ⟨token, rest⟩ := front
        have shorter := (jsonNextToken_cuts found).2
        simp only [token]
        rw [ih (by omega) rest]

/-- Written as a string and read back, the text is the same. -/
theorem same_viaString {buf : Bytes} (h : ErrorFree buf) : Same buf (viaString buf) := by
  refine ⟨utf8DecodeBuf16 buf, ⟨h, rfl⟩, (wellFormed_toCStringLen _).1, ?_⟩
  rw [viaString, ← units_newStringLen, units_newStringLen_toCStringLen, units_newStringLen]

theorem parseJSON_viaString {strtod : Bytes → Double} {buf : Bytes} (h : ErrorFree buf) :
    parseJSON strtod (viaString buf) = parseJSON strtod buf := by
  rw [parseJSON, parseJSON, jsonTokens_same strtod _ (Nat.le_refl _) (same_viaString h)]

/-- What is accepted as bytes is what is accepted as a string, if no byte of it is an error. -/
theorem parseJSON_ok_iff {strtod : Bytes → Double} {buf : Bytes} {v : Json} :
    parseJSON strtod buf = .ok v ↔
      ErrorFree buf ∧ parseJSON strtod (viaString buf) = .ok v := by
  constructor
  · intro h
    have errorFree := errorFree_of_parseJSON h
    exact ⟨errorFree, (parseJSON_viaString errorFree).trans h⟩
  · rintro ⟨errorFree, h⟩
    exact (parseJSON_viaString errorFree).symm.trans h

end Quickjs
