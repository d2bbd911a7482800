import Mathlib.Data.List.Chain
import Goqjs.EngineCodec

/-!
# Strings through UTF-8 and back

Every string comes back from `JS_ToCStringLen2` followed by `JS_NewStringLen`,
whatever its width and its surrogates. A buffer comes back from the two in the
other order exactly if it is well formed.
-/

namespace Quickjs

open Pieces

/-- The code points of a string: surrogate pairs joined, unmatched surrogates kept. -/
def codePoints : Units → List Nat
  | [] => []
  | [c] => [c.toNat]
  | c :: c1 :: rest =>
    if isHiSurrogate c.toNat && isLoSurrogate c1.toNat then
      fromSurrogate c.toNat c1.toNat :: codePoints rest
    else c.toNat :: codePoints (c1 :: rest)

/-- The two code points are no pair of surrogates that a string would join. -/
def Apart (c d : Nat) : Prop := ¬ (isHiSurrogate c = true ∧ isLoSurrogate d = true)

theorem toCStringWide_eq (s : Units) : toCStringWide s = (codePoints s).flatMap utf8Encode := by
  induction s using codePoints.induct with
  | case1 => rfl
  | case2 c =>
    simp only [toCStringWide, codePoints, List.flatMap_cons, List.flatMap_nil, List.append_nil]
    split_ifs with ascii
    · rw [utf8Encode_one ascii]
    · rfl
    · rfl
  | case3 c c1 rest pair ih =>
    obtain ⟨hi, lo⟩ := Bool.and_eq_true_iff.mp pair
    have notAscii : ¬ c.toNat < 0x80 := by
      have h := (isHiSurrogate_iff _).mp hi
      omega
    simp only [toCStringWide, codePoints, if_neg notAscii, if_pos hi, if_pos lo, if_pos pair,
      List.flatMap_cons, ih]
  | case4 c c1 rest single ih =>
    rw [codePoints, if_neg single, List.flatMap_cons, ← ih]
    by_cases ascii : c.toNat < 0x80
    · rw [toCStringWide, if_pos ascii, utf8Encode_one ascii]
      rfl
    · by_cases hi : isHiSurrogate c.toNat = true
      · have lo : ¬ isLoSurrogate c1.toNat = true := by
          intro lo
          exact single (Bool.and_eq_true_iff.mpr ⟨hi, lo⟩)
        rw [toCStringWide, if_neg ascii, if_pos hi]
        simp only [if_neg lo]
      · rw [toCStringWide, if_neg ascii, if_neg hi]

theorem fromSurrogate_range (hi lo : Nat) :
    0x10000 ≤ fromSurrogate hi lo ∧ fromSurrogate hi lo < 0x110000 := by
  rw [fromSurrogate_eq]
  omega

theorem codePoints_valid (s : Units) : ∀ c ∈ codePoints s, c < 0x110000 := by
  induction s using codePoints.induct with
  | case1 => simp [codePoints]
  | case2 c =>
    have hc := c.toNat_lt
    simp only [codePoints, List.mem_singleton]
    rintro d rfl
    omega
  | case3 c c1 rest pair ih =>
    have range := fromSurrogate_range c.toNat c1.toNat
    simp only [codePoints, if_pos pair, List.mem_cons]
    rintro d (rfl | hd)
    · exact range.2
    · exact ih d hd
  | case4 c c1 rest single ih =>
    have hc := c.toNat_lt
    simp only [codePoints, if_neg single, List.mem_cons]
    rintro d (rfl | hd)
    · omega
    · exact ih d hd

theorem wordsOf_fromSurrogate {hi lo : UInt16} (h : isHiSurrogate hi.toNat = true)
    (l : isLoSurrogate lo.toNat = true) :
    wordsOf (fromSurrogate hi.toNat lo.toNat) = [hi, lo] := by
  have range := fromSurrogate_range hi.toNat lo.toNat
  rw [isHiSurrogate_iff] at h
  rw [isLoSurrogate_iff] at l
  have hhi : getHiSurrogate (fromSurrogate hi.toNat lo.toNat) = hi.toNat := by
    rw [getHiSurrogate_eq, fromSurrogate_eq]
    omega
  have hlo : getLoSurrogate (fromSurrogate hi.toNat lo.toNat) = lo.toNat := by
    rw [getLoSurrogate_eq, fromSurrogate_eq]
    omega
  rw [wordsOf, if_pos (by omega), hhi, hlo, UInt16.ofNat_toNat, UInt16.ofNat_toNat]

theorem wordsOf_unit (c : UInt16) : wordsOf c.toNat = [c] := by
  have hc := c.toNat_lt
  rw [wordsOf, if_neg (by omega), UInt16.ofNat_toNat]

theorem flatMap_wordsOf_codePoints (s : Units) : (codePoints s).flatMap wordsOf = s := by
  induction s using codePoints.induct with
  | case1 => rfl
  | case2 c => simp [codePoints, wordsOf_unit]
  | case3 c c1 rest pair ih =>
    obtain ⟨hi, lo⟩ := Bool.and_eq_true_iff.mp pair
    rw [codePoints, if_pos pair, List.flatMap_cons, ih, wordsOf_fromSurrogate hi lo]
    rfl
  | case4 c c1 rest single ih =>
    rw [codePoints, if_neg single, List.flatMap_cons, ih, wordsOf_unit]
    rfl

/-- A string's code points hold no pair any more. -/
theorem codePoints_apart (s : Units) : (codePoints s).IsChain Apart := by
  induction s using codePoints.induct with
  | case1 => simp [codePoints]
  | case2 c => simp [codePoints]
  | case3 c c1 rest pair ih =>
    have range := fromSurrogate_range c.toNat c1.toNat
    rw [codePoints, if_pos pair, List.isChain_cons]
    refine ⟨fun d _ h => ?_, ih⟩
    have hi := (isHiSurrogate_iff _).mp h.1
    omega
  | case4 c c1 rest single ih =>
    rw [codePoints, if_neg single, List.isChain_cons]
    refine ⟨fun d hd h => ?_, ih⟩
    cases rest with
    | nil =>
      obtain rfl : c1.toNat = d := by simpa [codePoints] using hd
      exact single (Bool.and_eq_true_iff.mpr h)
    | cons c2 rest =>
      rw [codePoints] at hd
      split at hd
      · have range := fromSurrogate_range c1.toNat c2.toNat
        have lo := (isLoSurrogate_iff _).mp h.2
        obtain rfl : fromSurrogate c1.toNat c2.toNat = d := by simpa using hd
        omega
      · obtain rfl : c1.toNat = d := by simpa using hd
        exact single (Bool.and_eq_true_iff.mpr h)

theorem toNat_ofNat16_of_lt {n : Nat} (h : n < 65536) : (UInt16.ofNat n).toNat = n := by
  simp [Nat.mod_eq_of_lt h]

/-- A code point that is two words starts with a high surrogate. -/
theorem codePoints_wordsOf_append {c : Nat} (valid : c < 0x110000) (rest : Units)
    (apart : ∀ d ∈ rest.head?, Apart c d.toNat) :
    codePoints (wordsOf c ++ rest) = c :: codePoints rest := by
  by_cases large : c > 0xFFFF
  · have hi : (UInt16.ofNat (getHiSurrogate c)).toNat = c / 1024 - 64 + 0xD800 := by
      rw [toNat_ofNat16_of_lt (by rw [getHiSurrogate_eq]; omega), getHiSurrogate_eq]
    have lo : (UInt16.ofNat (getLoSurrogate c)).toNat = 0xDC00 + c % 1024 := by
      rw [toNat_ofNat16_of_lt (by rw [getLoSurrogate_eq]; omega), getLoSurrogate_eq]
    have pair : (isHiSurrogate (UInt16.ofNat (getHiSurrogate c)).toNat
        && isLoSurrogate (UInt16.ofNat (getLoSurrogate c)).toNat) = true := by
      rw [Bool.and_eq_true, isHiSurrogate_iff, isLoSurrogate_iff, hi, lo]
      omega
    rw [wordsOf, if_pos large]
    simp only [List.cons_append, List.nil_append, codePoints]
    rw [if_pos pair, hi, lo, fromSurrogate_eq, List.cons.injEq]
    exact ⟨by omega, rfl⟩
  · have unit : (UInt16.ofNat c).toNat = c := toNat_ofNat16_of_lt (by omega)
    rw [wordsOf, if_neg large]
    cases rest with
    | nil => simp [codePoints, unit]
    | cons d rest =>
      have single : ¬ (isHiSurrogate (UInt16.ofNat c).toNat && isLoSurrogate d.toNat) = true := by
        rw [unit, Bool.and_eq_true]
        exact apart d rfl
      simp only [List.cons_append, List.nil_append, codePoints]
      rw [if_neg single, unit]

theorem codePoints_flatMap_wordsOf {cs : List Nat} (valid : ∀ c ∈ cs, c < 0x110000)
    (apart : cs.IsChain Apart) : codePoints (cs.flatMap wordsOf) = cs := by
  induction cs with
  | nil => rfl
  | cons c cs ih =>
    obtain ⟨first, chain⟩ := List.isChain_cons.mp apart
    have rest := ih (fun d hd => valid d (List.mem_cons_of_mem _ hd)) chain
    have head : ∀ d ∈ (cs.flatMap wordsOf).head?, Apart c d.toNat := by
      intro d hd
      cases cs with
      | nil => simp at hd
      | cons e cs =>
        have he := valid e (by simp)
        rw [List.flatMap_cons, wordsOf] at hd
        split at hd
        · obtain rfl : UInt16.ofNat (getHiSurrogate e) = d := by simpa using hd
          intro h
          have lo := (isLoSurrogate_iff _).mp h.2
          rw [toNat_ofNat16_of_lt (by rw [getHiSurrogate_eq]; omega), getHiSurrogate_eq] at lo
          omega
        · obtain rfl : UInt16.ofNat e = d := by simpa using hd
          rw [toNat_ofNat16_of_lt (by omega)]
          exact first e rfl
    rw [List.flatMap_cons, codePoints_wordsOf_append (valid c List.mem_cons_self) _ head, rest]

theorem sequences_ascii_cons {c : UInt8} (h : c.toNat < 0x80) (p : Bytes) :
    sequences (c :: p) = (c.toNat, false) :: sequences p := by
  have one := sequences_encode (c := c.toNat) (by omega) p
  rwa [utf8Encode_one h, UInt8.ofNat_toNat] at one

theorem decodeBuf16_ascii {buf : Bytes} (h : ∀ b ∈ buf, b.toNat < 0x80) :
    utf8DecodeBuf16 buf = buf.map (fun c => UInt16.ofNat c.toNat) := by
  induction buf with
  | nil => rfl
  | cons c p ih =>
    have hc := h c List.mem_cons_self
    have rest := ih (fun b hb => h b (List.mem_cons_of_mem _ hb))
    rw [utf8DecodeBuf16] at rest ⊢
    rw [sequences_ascii_cons hc, List.flatMap_cons, rest, wordsOf, if_neg (by omega)]
    rfl

/-- The 8-bit branch on a code point that it is meant for. -/
theorem decodeBuf8_append {c : Nat} (h : c ≤ 0xFF) (rest : Bytes) :
    utf8DecodeBuf8 (utf8Encode c ++ rest) = .ofNat c :: utf8DecodeBuf8 rest := by
  by_cases ascii : c < 0x80
  · rw [utf8Encode_one ascii, List.cons_append, List.nil_append, utf8DecodeBuf8.eq_def]
    simp only [toNat_ofNat_of_lt (show c < 256 by omega)]
    rw [if_neg (by omega)]
  · have lead := toNat_ofNat_of_lt (show 0xC0 + c / 64 < 256 by omega)
    have tail := toNat_ofNat_of_lt (show 0x80 + c % 64 < 256 by omega)
    have value : (0xC0 + c / 64) <<< 6 + (0x80 + c % 64) + (2 ^ 32 - ((0xC0 <<< 6) + 0x80)) =
        c + 256 * 2 ^ 24 := by
      simp only [Nat.shiftLeft_eq]
      omega
    rw [utf8Encode_two (by omega) (by omega)]
    simp only [List.cons_append, List.nil_append, utf8DecodeBuf8, lead, tail, value]
    rw [if_pos (by omega), List.cons.injEq]
    refine ⟨UInt8.toNat_inj.mp ?_, rfl⟩
    simp

theorem decodeBuf8_eq {buf : Bytes} (small : ∀ s ∈ sequences buf, s.1 ≤ 0xFF) :
    (utf8DecodeBuf8 buf).map (fun c => UInt16.ofNat c.toNat) = utf8DecodeBuf16 buf := by
  induction buf using sequences_induction with
  | nil => rfl
  | codePoint c rest valid ih =>
    rw [sequences_encode valid] at small
    have hc : c ≤ 0xFF := small (c, false) List.mem_cons_self
    have tail := ih (fun s hs => small s (List.mem_cons_of_mem _ hs))
    rw [utf8DecodeBuf16] at tail ⊢
    rw [decodeBuf8_append hc, sequences_encode valid, List.map_cons, tail, List.flatMap_cons,
      wordsOf, if_neg (by omega), toNat_ofNat_of_lt (by omega)]
    rfl
  | error lead p notAscii hs ih =>
    rw [sequences_error hs] at small
    have h := small (0xFFFD, true) List.mem_cons_self
    simp at h

/-- All three branches of `JS_NewStringLen` give the string that the 16-bit one decodes. -/
theorem units_newStringLen (buf : Bytes) : (newStringLen buf).units = utf8DecodeBuf16 buf := by
  by_cases empty : buf.length ≤ 0
  · obtain rfl : buf = [] := List.length_eq_zero_iff.mp (Nat.le_zero.mp empty)
    rfl
  rw [newStringLen, if_neg empty]
  by_cases ascii : buf.all (fun b => b.toNat < 0x80) = true
  · rw [utf8Scan, if_pos ascii]
    exact (decodeBuf16_ascii (by simpa using ascii)).symm
  · rw [utf8Scan, if_neg ascii]
    split
    · rename_i h
      cases h
    · rename_i h
      simp only [Kind.mk.injEq, true_and] at h
      exact decodeBuf8_eq (by simpa using h.1)
    · rfl

theorem isChain_apart {cs : List Nat} (small : ∀ c ∈ cs, c < 0xD800) : cs.IsChain Apart := by
  induction cs with
  | nil => exact .nil
  | cons c cs ih =>
    refine List.isChain_cons.mpr
      ⟨fun d _ h => ?_, ih (fun d hd => small d (List.mem_cons_of_mem _ hd))⟩
    have hi := (isHiSurrogate_iff _).mp h.1
    have hc := small c List.mem_cons_self
    omega

theorem codePoints_of_small {cs : List Nat} (small : ∀ c ∈ cs, c < 0xD800) :
    codePoints (cs.map .ofNat) = cs := by
  have words : cs.flatMap wordsOf = cs.map .ofNat := by
    rw [List.map_eq_flatMap]
    refine List.flatMap_congr fun c hc => ?_
    have h := small c hc
    rw [wordsOf, if_neg (by omega)]
  have valid : ∀ c ∈ cs, c < 0x110000 := by
    intro c hc
    have h := small c hc
    omega
  rw [← words]
  exact codePoints_flatMap_wordsOf valid (isChain_apart small)

theorem codePoints_narrow (chars : List UInt8) :
    codePoints (Str.narrow chars).units = chars.map UInt8.toNat := by
  have small : ∀ c ∈ chars.map UInt8.toNat, c < 0xD800 := by
    intro c hc
    obtain ⟨b, _, rfl⟩ := List.mem_map.mp hc
    have hb := b.toNat_lt
    omega
  have h := codePoints_of_small small
  rwa [List.map_map] at h

theorem toCStringNarrow_eq (chars : List UInt8) :
    toCStringNarrow chars = (chars.map UInt8.toNat).flatMap utf8Encode := by
  rw [List.flatMap_map, toCStringNarrow]
  refine List.flatMap_congr fun c _ => ?_
  have hc := c.toNat_lt
  split_ifs with ascii
  · rw [utf8Encode_one ascii, UInt8.ofNat_toNat]
  · rw [utf8Encode, if_neg ascii, if_pos (by omega)]

/-- Both widths are written alike. -/
theorem toCStringLen_eq (s : Str) : toCStringLen s = (codePoints s.units).flatMap utf8Encode := by
  cases s with
  | wide chars => exact toCStringWide_eq chars
  | narrow chars =>
    rw [codePoints_narrow, ← toCStringNarrow_eq, toCStringLen]
    split_ifs with ascii
    · have small : ∀ c ∈ chars, c.toNat < 0x80 := by simpa using ascii
      have one : ∀ c ∈ chars, (if c.toNat < 0x80 then [c]
          else [.ofNat (c.toNat >>> 6 ||| 0xC0), .ofNat (c.toNat &&& 0x3F ||| 0x80)]) = [c] :=
        fun c hc => if_pos (small c hc)
      rw [toCStringNarrow, List.flatMap_congr one]
      simp
    · rfl

theorem decodeBuf16_flatMap_encode {cs : List Nat} (valid : ∀ c ∈ cs, c < 0x110000) :
    utf8DecodeBuf16 (cs.flatMap utf8Encode) = cs.flatMap wordsOf := by
  rw [utf8DecodeBuf16, sequences_flatMap_encode valid, List.flatMap_map]

/-- Every string comes back. -/
theorem units_newStringLen_toCStringLen (s : Str) :
    (newStringLen (toCStringLen s)).units = s.units := by
  rw [units_newStringLen, toCStringLen_eq, decodeBuf16_flatMap_encode (codePoints_valid _),
    flatMap_wordsOf_codePoints]

theorem toCStringLen_congr {s t : Str} (h : s.units = t.units) :
    toCStringLen s = toCStringLen t := by
  rw [toCStringLen_eq, toCStringLen_eq, h]

/-- No string loses its identity: two that are written alike are `===`. -/
theorem units_of_toCStringLen {s t : Str} (h : toCStringLen s = toCStringLen t) :
    s.units = t.units := by
  rw [← units_newStringLen_toCStringLen s, h, units_newStringLen_toCStringLen]

/-- No encoding error, and no surrogate pair written as two sequences. -/
def WellFormed (buf : Bytes) : Prop :=
  (∀ s ∈ sequences buf, s.2 = false) ∧ ((sequences buf).map Prod.fst).IsChain Apart

theorem wellFormed_toCStringLen (s : Str) : WellFormed (toCStringLen s) := by
  have parts := sequences_flatMap_encode (codePoints_valid s.units)
  rw [← toCStringLen_eq] at parts
  refine ⟨?_, ?_⟩
  · rw [parts]
    simp
  · rw [parts, List.map_map, show Prod.fst ∘ (fun c : Nat => (c, false)) = id from rfl,
      List.map_id]
    exact codePoints_apart s.units

theorem flatMap_encode_sequences {buf : Bytes} (h : ∀ s ∈ sequences buf, s.2 = false) :
    ((sequences buf).map Prod.fst).flatMap utf8Encode = buf ∧
      ∀ c ∈ (sequences buf).map Prod.fst, c < 0x110000 := by
  induction buf using sequences_induction with
  | nil => simp
  | codePoint c rest valid ih =>
    rw [sequences_encode valid] at h ⊢
    obtain ⟨bytes, small⟩ := ih (fun s hs => h s (List.mem_cons_of_mem _ hs))
    rw [List.map_cons, List.flatMap_cons, bytes]
    refine ⟨rfl, fun d hd => ?_⟩
    rcases List.mem_cons.mp hd with rfl | hd
    · exact valid
    · exact small d hd
  | error lead p notAscii hs ih =>
    rw [sequences_error hs] at h
    have bad := h (0xFFFD, true) List.mem_cons_self
    cases bad

/-- A buffer comes back exactly if it is well formed. -/
theorem toCStringLen_newStringLen_iff (buf : Bytes) :
    toCStringLen (newStringLen buf) = buf ↔ WellFormed buf := by
  constructor
  · intro h
    have written := wellFormed_toCStringLen (newStringLen buf)
    rwa [h] at written
  · rintro ⟨noError, apart⟩
    obtain ⟨bytes, valid⟩ := flatMap_encode_sequences noError
    have words : utf8DecodeBuf16 buf = ((sequences buf).map Prod.fst).flatMap wordsOf := by
      rw [utf8DecodeBuf16, List.flatMap_map]
    rw [toCStringLen_eq, units_newStringLen, words, codePoints_flatMap_wordsOf valid apart, bytes]

/-- The units of a text: two for a character outside the basic plane. -/
def utf16 (text : List Char) : Units := text.flatMap (fun c => wordsOf c.toNat)

theorem utf8Encode_char (c : Char) : utf8Encode c.toNat = String.utf8EncodeChar c := by
  have valid : c.toNat < 0x110000 := by
    rcases c.valid with h | h
    · exact Nat.lt_trans h (by decide)
    · exact h.2
  change utf8Encode c.val.toNat = _
  change c.val.toNat < 0x110000 at valid
  generalize hn : c.val.toNat = n at valid
  rw [String.utf8EncodeChar.eq_def, hn]
  simp only
  by_cases h1 : n < 0x80
  · rw [utf8Encode_one h1, if_pos (by omega)]
  by_cases h2 : n < 0x800
  · rw [utf8Encode_two (by omega) h2, if_neg (by omega), if_pos (by omega),
      show n / 64 % 32 + 0xC0 = 0xC0 + n / 64 by omega, Nat.add_comm (n % 64)]
  by_cases h3 : n < 0x10000
  · rw [utf8Encode_three (by omega) h3, if_neg (by omega), if_neg (by omega), if_pos (by omega),
      show n / 4096 % 16 + 0xE0 = 0xE0 + n / 4096 by omega, Nat.add_comm (n / 64 % 64),
      Nat.add_comm (n % 64)]
  · rw [utf8Encode_four (by omega) valid, if_neg (by omega), if_neg (by omega), if_neg (by omega),
      show n / 262144 % 8 + 0xF0 = 0xF0 + n / 262144 by omega, Nat.add_comm (n / 4096 % 64),
      Nat.add_comm (n / 64 % 64), Nat.add_comm (n % 64)]

theorem char_not_surrogate (c : Char) : c.toNat < 0xD800 ∨ 0xDFFF < c.toNat := by
  rcases c.valid with h | h
  · exact .inl h
  · exact .inr h.1

theorem codePoints_utf16 (text : List Char) :
    codePoints (utf16 text) = text.map Char.toNat := by
  have valid : ∀ c ∈ text.map Char.toNat, c < 0x110000 := by
    intro c hc
    obtain ⟨d, _, rfl⟩ := List.mem_map.mp hc
    rcases d.valid with h | h
    · exact Nat.lt_trans h (by decide)
    · exact h.2
  have apart : (text.map Char.toNat).IsChain Apart := by
    induction text with
    | nil => exact .nil
    | cons c text ih =>
      rw [List.map_cons, List.isChain_cons]
      refine ⟨fun d _ h => ?_, ih (fun d hd => valid d (List.mem_cons_of_mem _ hd))⟩
      have hi := (isHiSurrogate_iff _).mp h.1
      rcases char_not_surrogate c with low | high <;> omega
  have words : utf16 text = (text.map Char.toNat).flatMap wordsOf := by
    rw [utf16, List.flatMap_map]
  rw [words, codePoints_flatMap_wordsOf valid apart]

/-- For well-formed Unicode the bytes are UTF-8 as everyone else has it. -/
theorem toCStringLen_of_utf16 {s : Str} {text : List Char} (h : s.units = utf16 text) :
    toCStringLen s = text.flatMap String.utf8EncodeChar := by
  rw [toCStringLen_eq, h, codePoints_utf16, List.flatMap_map]
  exact List.flatMap_congr fun c _ => utf8Encode_char c

/-- The string whose `i`-th unit is the `i`-th byte. -/
def latin1 (buf : Bytes) : Units := buf.map (fun c => UInt16.ofNat c.toNat)

theorem latin1_ofNat {u : Units} (narrow : ∀ c ∈ u, c.toNat < 256) :
    latin1 (u.map fun c => .ofNat c.toNat) = u := by
  rw [latin1, List.map_map]
  conv_rhs => rw [← List.map_id u]
  refine List.map_congr_left fun c mem => ?_
  rw [Function.comp_apply, toNat_ofNat_of_lt (narrow c mem), UInt16.ofNat_toNat, id]

theorem latin1_injective {b b' : Bytes} (same : latin1 b = latin1 b') : b = b' := by
  refine List.map_injective_iff.mpr (fun c c' eq => ?_) same
  have values := congrArg UInt16.toNat eq
  rw [toNat_ofNat16_of_lt (c.toNat_lt.trans (by decide)),
    toNat_ofNat16_of_lt (c'.toNat_lt.trans (by decide))] at values
  exact UInt8.toNat_inj.mp values

theorem units_newStringLen_ascii {buf : Bytes} (h : ∀ c ∈ buf, c.toNat < 0x80) :
    (newStringLen buf).units = latin1 buf := by
  rw [units_newStringLen, decodeBuf16_ascii h]
  rfl

theorem codePoints_latin1 (buf : Bytes) : codePoints (latin1 buf) = buf.map UInt8.toNat :=
  codePoints_narrow buf

theorem length_utf8Encode_byte (c : UInt8) :
    (utf8Encode c.toNat).length = if c.toNat < 0x80 then 1 else 2 := by
  have hc := c.toNat_lt
  split_ifs with ascii
  · rw [utf8Encode_one ascii]
    rfl
  · rw [utf8Encode_two (by omega) (by omega)]
    rfl

theorem length_encode_bytes (buf : Bytes) :
    ((buf.map UInt8.toNat).flatMap utf8Encode).length =
      buf.length + buf.countP (fun c => 0x80 ≤ c.toNat) := by
  induction buf with
  | nil => rfl
  | cons c buf ih =>
    rw [List.map_cons, List.flatMap_cons, List.length_append, ih, length_utf8Encode_byte,
      List.length_cons, List.countP_cons]
    by_cases ascii : c.toNat < 0x80
    · rw [if_pos ascii, if_neg (by simpa using ascii)]
      omega
    · rw [if_neg ascii, if_pos (by simpa using ascii)]
      omega

/-- A string of small units takes a byte for each, and one more for each from `0x80` on. -/
theorem length_toCStringLen_latin1 {s : Str} {buf : Bytes} (h : s.units = latin1 buf) :
    (toCStringLen s).length = buf.length + buf.countP (fun c => 0x80 ≤ c.toNat) := by
  rw [toCStringLen_eq, h, codePoints_latin1, length_encode_bytes]

theorem toCStringLen_latin1_iff {s : Str} {buf : Bytes} (h : s.units = latin1 buf) :
    toCStringLen s = buf ↔ ∀ c ∈ buf, c.toNat < 0x80 := by
  constructor
  · intro same
    have count := length_toCStringLen_latin1 h
    rw [same] at count
    have none : buf.countP (fun c => 0x80 ≤ c.toNat) = 0 := by omega
    intro c hc
    have hc := List.countP_eq_zero.mp none c hc
    simpa using hc
  · intro ascii
    rw [toCStringLen_eq, h, codePoints_latin1, List.flatMap_map]
    have one : ∀ c ∈ buf, utf8Encode c.toNat = [c] := fun c hc => by
      rw [utf8Encode_one (ascii c hc), UInt8.ofNat_toNat]
    rw [List.flatMap_congr one]
    simp

theorem length_decodeBuf16_le (buf : Bytes) : (utf8DecodeBuf16 buf).length ≤ buf.length := by
  induction buf using sequences_induction with
  | nil => exact Nat.le_refl _
  | codePoint c rest valid ih =>
    have words : (wordsOf c).length ≤ (utf8Encode c).length := by
      rw [wordsOf, utf8Encode]
      split_ifs <;> simp
      all_goals omega
    rw [utf8DecodeBuf16] at ih ⊢
    rw [sequences_encode valid, List.flatMap_cons, List.length_append, List.length_append]
    change (wordsOf c).length + _ ≤ _
    omega
  | error lead p notAscii hs ih =>
    rw [utf8DecodeBuf16] at ih ⊢
    rw [sequences_error hs, List.flatMap_cons, List.length_append, List.length_cons]
    have one : (wordsOf (0xFFFD, true).1).length = 1 := rfl
    omega

/-- Text of ASCII alone comes from bytes of ASCII alone. -/
theorem ascii_of_decodeBuf16 {buf : Bytes} (h : ∀ u ∈ utf8DecodeBuf16 buf, u.toNat < 0x80) :
    ∀ c ∈ buf, c.toNat < 0x80 := by
  induction buf using sequences_induction with
  | nil => simp
  | codePoint c rest valid ih =>
    rw [utf8DecodeBuf16, sequences_encode valid, List.flatMap_cons, ← utf8DecodeBuf16] at h
    have ascii : c < 0x80 := by
      by_contra notAscii
      by_cases large : c > 0xFFFF
      · have first := h (.ofNat (getHiSurrogate c)) (by simp [wordsOf, large])
        rw [toNat_ofNat16_of_lt (by rw [getHiSurrogate_eq]; omega), getHiSurrogate_eq] at first
        omega
      · have first := h (.ofNat c) (by simp [wordsOf, large])
        rw [toNat_ofNat16_of_lt (by omega)] at first
        omega
    rw [utf8Encode_one ascii]
    intro d hd
    rcases List.mem_cons.mp hd with rfl | hd
    · rw [toNat_ofNat_of_lt (by omega)]
      exact ascii
    · exact ih (fun u hu => h u (List.mem_append_right _ hu)) d hd
  | error lead p notAscii hs ih =>
    rw [utf8DecodeBuf16, sequences_error hs, List.flatMap_cons] at h
    have first := h (.ofNat 0xFFFD) (List.mem_append_left _ (by simp [wordsOf]))
    rw [toNat_ofNat16_of_lt (by omega)] at first
    omega

/-- Only ASCII is read unit by unit: any other byte makes a longer sequence or a `0xFFFD`. -/
theorem decodeBuf16_latin1_iff (buf : Bytes) :
    utf8DecodeBuf16 buf = latin1 buf ↔ ∀ c ∈ buf, c.toNat < 0x80 := by
  refine ⟨fun h => ?_, fun ascii => decodeBuf16_ascii ascii⟩
  induction buf using sequences_induction with
  | nil => simp
  | codePoint c rest valid ih =>
    by_cases ascii : c < 0x80
    · rw [utf8DecodeBuf16, sequences_encode valid, List.flatMap_cons, ← utf8DecodeBuf16, wordsOf,
        if_neg (by omega), utf8Encode_one ascii, latin1, List.map_append] at h
      have tail := ih (List.append_inj_right h rfl)
      rw [utf8Encode_one ascii]
      intro d hd
      rcases List.mem_cons.mp hd with rfl | hd
      · rw [toNat_ofNat_of_lt (by omega)]
        exact ascii
      · exact tail d hd
    · have bound := length_decodeBuf16_le rest
      have words : (wordsOf c).length < (utf8Encode c).length := by
        rw [wordsOf, utf8Encode]
        split_ifs <;> simp
        all_goals omega
      have lengths := congrArg List.length h
      rw [utf8DecodeBuf16, sequences_encode valid, List.flatMap_cons, ← utf8DecodeBuf16,
        List.length_append, latin1, List.length_map, List.length_append] at lengths
      change (wordsOf c).length + _ = _ at lengths
      omega
  | error lead p notAscii hs ih =>
    rw [utf8DecodeBuf16, sequences_error hs, List.flatMap_cons, latin1, List.map_cons] at h
    have heads : UInt16.ofNat 0xFFFD = UInt16.ofNat lead.toNat := (List.cons.inj h).1
    have hlead := lead.toNat_lt
    have values := congrArg UInt16.toNat heads
    rw [toNat_ofNat16_of_lt (by omega), toNat_ofNat16_of_lt (by omega)] at values
    omega

end Quickjs
