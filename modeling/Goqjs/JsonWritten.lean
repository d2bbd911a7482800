import Goqjs.JsonDecoding
import Goqjs.JsonWriter

/-!
# What the lexer finds in a written text

The writer's strings, numbers and names are tokens of the parser, whatever stands behind them: a
comma, a closing bracket, a line end or nothing.
-/

namespace Quickjs

open Binary64

variable {p b t : Bytes} {u rest : Units} {c d : Nat}

/-- What the writer puts behind a value: an end, a line end, a comma or a closing bracket. -/
def Delimited (p : Bytes) : Prop := (peek p).toNat ∈ [0, 0x0A, 0x2C, 0x5D, 0x7D]

theorem Delimited.cases (h : Delimited p) : (peek p).toNat = 0 ∨ (peek p).toNat = 0x0A ∨
    (peek p).toNat = 0x2C ∨ (peek p).toNat = 0x5D ∨ (peek p).toNat = 0x7D := by
  simpa [Delimited] using h

theorem Delimited.name (h : Delimited p) : isIdentContinue (peek p) = false := by
  have := h.cases
  simp only [isIdentContinue, isIdentFirst, isDigit, Bool.or_eq_false_iff, Bool.and_eq_false_iff,
    decide_eq_false_iff_not]
  omega

theorem Delimited.digit (h : Delimited p) : isDigit (peek p) = false :=
  (Bool.or_eq_false_iff.mp h.name).2

theorem isDigit_peek_append (h : Delimited p) (b : Bytes) :
    isDigit (peek (b ++ p)) = isDigit (peek b) := by
  cases b with
  | nil => exact h.digit
  | cons c b => rfl

theorem takeWhile_stop {q : UInt8 → Bool} (stop : q (peek p) = false) :
    p.takeWhile q = [] ∧ p.dropWhile q = p := by
  cases p with
  | nil => exact ⟨rfl, rfl⟩
  | cons c p =>
    have stop : q c = false := stop
    simp [stop]

theorem takeWhile_append_stop {q : UInt8 → Bool} (stop : q (peek p) = false) (b : Bytes) :
    (b ++ p).takeWhile q = b.takeWhile q ∧ (b ++ p).dropWhile q = b.dropWhile q ++ p := by
  induction b with
  | nil => exact takeWhile_stop stop
  | cons c b ih =>
    by_cases more : q c = true
    · simp [more, ih]
    · simp [more]

theorem digits_append (h : Delimited p) (b : Bytes) :
    digits (b ++ p) = ((digits b).1, (digits b).2 ++ p) := by
  obtain ⟨taken, left⟩ := takeWhile_append_stop h.digit b
  rw [digits, taken, left, digits]

theorem jsonSign_append (h : Delimited p) (b : Bytes) :
    jsonSign (b ++ p) = ((jsonSign b).1, (jsonSign b).2 ++ p) := by
  cases b with
  | nil =>
    cases p with
    | nil => rfl
    | cons c p =>
      have sign : ¬ (c.toNat = 0x2B ∨ c.toNat = 0x2D) := by
        have := h.cases
        simp only [peek, List.headD_cons] at this
        omega
      simp only [List.nil_append, jsonSign, if_neg sign]
  | cons c b =>
    simp only [List.cons_append, jsonSign]
    split_ifs <;> rfl

theorem jsonFraction_append (h : Delimited p) (b : Bytes) :
    jsonFraction (b ++ p) = (jsonFraction b).map fun x => (x.1, x.2 ++ p) := by
  cases b with
  | nil =>
    cases p with
    | nil => rfl
    | cons c p =>
      have point : ¬ c.toNat = 0x2E := by
        have := h.cases
        simp only [peek, List.headD_cons] at this
        omega
      simp only [List.nil_append, jsonFraction, if_neg point, Except.map]
  | cons c b =>
    simp only [List.cons_append, jsonFraction, isDigit_peek_append h, digits_append h]
    split_ifs <;> rfl

theorem jsonExponent_append (h : Delimited p) (b : Bytes) :
    jsonExponent (b ++ p) = (jsonExponent b).map fun x => (x.1, x.2 ++ p) := by
  cases b with
  | nil =>
    cases p with
    | nil => rfl
    | cons c p =>
      have e : ¬ (c.toNat = 0x65 ∨ c.toNat = 0x45) := by
        have := h.cases
        simp only [peek, List.headD_cons] at this
        omega
      simp only [List.nil_append, jsonExponent, if_neg e, Except.map]
  | cons c b =>
    simp only [List.cons_append, jsonExponent, jsonSign_append h, isDigit_peek_append h,
      digits_append h]
    split_ifs <;> rfl

theorem peek_tail_append (h : Delimited p) (b : Bytes) (digit : isDigit (peek b) = true) :
    isDigit (peek (b ++ p).tail) = isDigit (peek b.tail) ∧ peek (b ++ p) = peek b := by
  cases b with
  | nil => cases digit
  | cons c b => exact ⟨isDigit_peek_append h b, rfl⟩

theorem jsonParseNumber_append (h : Delimited p) (b : Bytes) :
    jsonParseNumber (b ++ p) = (jsonParseNumber b).map fun x => (x.1, x.2 ++ p) := by
  simp only [jsonParseNumber, jsonSign_append h, isDigit_peek_append h]
  cases digit : isDigit (peek (jsonSign b).2) with
  | false => rfl
  | true =>
    obtain ⟨second, first⟩ := peek_tail_append h _ digit
    rw [second, first]
    simp only [digits_append h, jsonFraction_append h]
    split_ifs
    · rfl
    · rfl
    · cases fraction : jsonFraction (digits (jsonSign b).2).2 with
      | error e => rfl
      | ok x =>
        change (jsonExponent (x.2 ++ p) >>= _) = Except.map _ (jsonExponent x.2 >>= _)
        rw [jsonExponent_append h]
        cases exponent : jsonExponent x.2 with
        | error e => rfl
        | ok y => rfl

theorem toCStringWide_ascii {c : UInt16} (low : c.toNat < 0x80) (u : Units) :
    toCStringWide (c :: u) = .ofNat c.toNat :: toCStringWide u := by
  rw [toCStringWide_eq, codePoints_ascii_cons low, List.flatMap_cons, utf8Encode_one low,
    ← toCStringWide_eq, List.singleton_append]

theorem isSurrogate_iff : isSurrogate c = true ↔ 0xD800 ≤ c ∧ c < 0xE000 := by
  simp only [isSurrogate, Nat.shiftRight_eq_div_pow, beq_iff_eq]
  omega

/-- A code point that is no surrogate keeps its own bytes, whatever stands behind it. -/
theorem toCStringWide_wordsOf (valid : c < 0x110000) (scalar : ¬ isSurrogate c = true)
    (u : Units) : toCStringWide (wordsOf c ++ u) = utf8Encode c ++ toCStringWide u := by
  have apart : ∀ d ∈ u.head?, Apart c d.toNat := by
    rintro d - ⟨hi, -⟩
    have range := (isHiSurrogate_iff c).mp hi
    exact scalar (isSurrogate_iff.mpr ⟨range.1, by omega⟩)
  rw [toCStringWide_eq, codePoints_wordsOf_append valid u apart, List.flatMap_cons,
    ← toCStringWide_eq]

theorem hexDigit_reads : ∀ d < 16,
    (hexDigit d).toNat < 0x80 ∧ fromHex (hexDigit d).toNat = some d := by decide

theorem jsonHexDigits_hexDigit (n a : Nat) (small : d < 16) (u : Units) :
    jsonHexDigits UInt8.toNat (n + 1) a (toCStringWide (hexDigit d :: u)) =
      jsonHexDigits UInt8.toNat n (16 * a + d) (toCStringWide u) := by
  obtain ⟨low, value⟩ := hexDigit_reads d small
  have shift : a <<< 4 ||| d = 16 * a + d := by
    rw [← Nat.shiftLeft_add_eq_or_of_lt small, Nat.shiftLeft_eq]
    omega
  rw [toCStringWide_ascii low, jsonHexDigits, toNat_ofNat_of_lt (by omega), value]
  simp only [shift]

variable {n : Nat} {s : Units}

theorem jsonParseStringFrom_escape {x : Nat} {q : Bytes} (escape : jsonEscape UInt8.toNat p = .ok (x, q))
    (parsed : jsonParseStringFrom n q = .ok (s, b)) :
    jsonParseStringFrom (n + 1) (0x5C :: p) = .ok (wordsOf x ++ s, b) := by
  change (jsonEscape UInt8.toNat p >>= _) = _
  rw [escape]
  change (jsonParseStringFrom n q >>= _) = _
  rw [parsed]
  rfl

theorem jsonParseStringFrom_short {x : UInt16} (low : x.toNat < 0x80) (notHex : x.toNat ≠ 0x75)
    (short : jsonShortEscape x.toNat = some c)
    (parsed : jsonParseStringFrom n (toCStringWide u) = .ok (s, b)) :
    jsonParseStringFrom (n + 1) (toCStringWide ([0x5C, x] ++ u)) = .ok (wordsOf c ++ s, b) := by
  change jsonParseStringFrom (n + 1) (0x5C :: toCStringWide (x :: u)) = _
  rw [toCStringWide_ascii low]
  apply jsonParseStringFrom_escape _ parsed
  rw [jsonEscape, toNat_ofNat_of_lt (by omega), if_neg notHex, short]

theorem jsonParseStringFrom_hex (small : c < 0x10000)
    (parsed : jsonParseStringFrom n (toCStringWide u) = .ok (s, b)) :
    jsonParseStringFrom (n + 1) (toCStringWide (hexEscape c ++ u)) = .ok (wordsOf c ++ s, b) := by
  change jsonParseStringFrom (n + 1) (0x5C :: 0x75 :: toCStringWide (hexDigit (c / 4096) ::
    hexDigit (c / 256 % 16) :: hexDigit (c / 16 % 16) :: hexDigit (c % 16) :: u)) = _
  apply jsonParseStringFrom_escape _ parsed
  change jsonHexDigits UInt8.toNat 4 0 _ = _
  rw [jsonHexDigits_hexDigit 3 0 (by omega), jsonHexDigits_hexDigit 2 _ (by omega),
    jsonHexDigits_hexDigit 1 _ (by omega), jsonHexDigits_hexDigit 0 _ (by omega), jsonHexDigits]
  congr 2
  omega

theorem jsonParseStringFrom_plain (valid : c < 0x110000) (visible : 32 ≤ c) (quote : c ≠ 0x22)
    (backslash : c ≠ 0x5C) (scalar : ¬ isSurrogate c = true)
    (parsed : jsonParseStringFrom n (toCStringWide u) = .ok (s, b)) :
    jsonParseStringFrom (n + 1) (toCStringWide (wordsOf c ++ u)) = .ok (wordsOf c ++ s, b) := by
  rw [toCStringWide_wordsOf valid scalar]
  by_cases large : 0x80 ≤ c
  · rw [jsonParseStringFrom_high n valid large, parsed]
    rfl
  · have byte : (UInt8.ofNat c).toNat = c := toNat_ofNat_of_lt (by omega)
    rw [utf8Encode_one (by omega), List.singleton_append, jsonParseStringFrom, byte,
      if_neg quote, if_neg (by omega), if_neg backslash, if_neg large, parsed]
    rfl

/-- The reader undoes one turn of the writer. -/
theorem jsonParseStringFrom_quotedChar (valid : c < 0x110000)
    (parsed : jsonParseStringFrom n (toCStringWide u) = .ok (s, b)) :
    jsonParseStringFrom (n + 1) (toCStringWide (quotedChar c ++ u)) = .ok (wordsOf c ++ s, b) := by
  rw [quotedChar]
  split_ifs with tab cr lf bs ff self hex
  · subst tab
    exact jsonParseStringFrom_short (by decide) (by decide) rfl parsed
  · subst cr
    exact jsonParseStringFrom_short (by decide) (by decide) rfl parsed
  · subst lf
    exact jsonParseStringFrom_short (by decide) (by decide) rfl parsed
  · subst bs
    exact jsonParseStringFrom_short (by decide) (by decide) rfl parsed
  · subst ff
    exact jsonParseStringFrom_short (by decide) (by decide) rfl parsed
  · rcases self with rfl | rfl
    · exact jsonParseStringFrom_short (by decide) (by decide) rfl parsed
    · exact jsonParseStringFrom_short (by decide) (by decide) rfl parsed
  · apply jsonParseStringFrom_hex _ parsed
    rw [isSurrogate_iff] at hex
    omega
  · obtain ⟨visible, scalar⟩ := not_or.mp hex
    obtain ⟨quote, backslash⟩ := not_or.mp self
    exact jsonParseStringFrom_plain valid (by omega) quote backslash scalar parsed

theorem jsonParseStringFrom_quoted {cs : List Nat} (valid : ∀ c ∈ cs, c < 0x110000)
    (enough : cs.length < n) (u : Units) :
    jsonParseStringFrom n (toCStringWide (cs.flatMap quotedChar ++ 0x22 :: u)) =
      .ok (cs.flatMap wordsOf, toCStringWide u) := by
  induction cs generalizing n with
  | nil =>
    cases n with
    | zero => cases enough
    | succ n =>
      rw [List.flatMap_nil, List.nil_append, toCStringWide_ascii (by decide)]
      rfl
  | cons c cs ih =>
    cases n with
    | zero => cases enough
    | succ n =>
      have rest := ih (fun d hd => valid d (List.mem_cons_of_mem _ hd))
        (Nat.lt_of_succ_lt_succ enough)
      rw [List.flatMap_cons, List.append_assoc, List.flatMap_cons]
      exact jsonParseStringFrom_quotedChar (valid c List.mem_cons_self) rest

/-- A turn takes a byte at least, so the length of the buffer is turns enough. -/
theorem jsonParseStringFrom_enough {m : Nat} (hn : p.length ≤ n) (hm : p.length ≤ m) :
    jsonParseStringFrom n p = jsonParseStringFrom m p := by
  induction n generalizing m p with
  | zero =>
    obtain rfl := List.length_eq_zero_iff.mp (Nat.le_zero.mp hn)
    cases m <;> rfl
  | succ n ih =>
    cases p with
    | nil => cases m <;> rfl
    | cons c p =>
      cases m with
      | zero => cases hm
      | succ m =>
        rw [List.length_cons] at hn hm
        simp only [jsonParseStringFrom]
        split_ifs with quote control backslash high bad
        · rfl
        · rfl
        · cases escape : jsonEscape UInt8.toNat p with
          | error e => rfl
          | ok x =>
            have cuts : Cuts p x.2 := jsonEscape_cuts escape
            have shorter := cuts.length_le
            change (jsonParseStringFrom n x.2 >>= _) = (jsonParseStringFrom m x.2 >>= _)
            rw [ih (m := m) (by omega) (by omega)]
        · rfl
        · have shorter := length_utf8Decode c p
          rw [ih (m := m) (by omega) (by omega)]
        · rw [ih (m := m) (by omega) (by omega)]

theorem jsonParseString_quoted (s u : Units) :
    jsonParseString (toCStringWide ((codePoints s).flatMap quotedChar ++ 0x22 :: u)) =
      .ok (s, toCStringWide u) := by
  rw [jsonParseString, jsonParseStringFrom_enough (Nat.le_refl _) (Nat.le_add_right _
    ((codePoints s).length + 1)), jsonParseStringFrom_quoted (codePoints_valid s) (by omega),
    flatMap_wordsOf_codePoints]

/-- The text of a number reads as that number. -/
structure Numeral (strtod : Bytes → Double) (t : Bytes) (d : Double) : Prop where
  ascii : ∀ c ∈ t, c.toNat < 0x80
  whole : jsonParseNumber t = .ok (t, [])
  unsigned : (peek t).toNat ≠ 0x2B
  value : strtod t = d

variable {strtod : Bytes → Double}

theorem jsonTokens_next {tok : Token} {q : Bytes}
    (h : jsonNextToken strtod p = .ok (some (tok, q))) :
    jsonTokens strtod p = .next tok (jsonTokens strtod q) := by
  rw [jsonTokens_eq, h]

theorem jsonTokens_nil : jsonTokens strtod [] = .eof := rfl

theorem jsonTokens_char {c : UInt8} (mem : c ∈ [0x2C, 0x3A, 0x5B, 0x5D, 0x7B, 0x7D])
    (p : Bytes) : jsonTokens strtod (c :: p) = .next (.char c) (jsonTokens strtod p) := by
  apply jsonTokens_next
  simp only [List.mem_cons, List.not_mem_nil, or_false] at mem
  rcases mem with rfl | rfl | rfl | rfl | rfl | rfl <;> rfl

/-- What the lexer passes over. -/
def isBlank (c : UInt16) : Bool := c = 0x0D || c = 0x0A || c = 0x20 || c = 0x09

theorem jsonTokens_blank {c : UInt16} (blank : isBlank c = true) (u : Units) :
    jsonTokens strtod (toCStringWide (c :: u)) = jsonTokens strtod (toCStringWide u) := by
  simp only [isBlank, Bool.or_eq_true, decide_eq_true_eq] at blank
  rw [toCStringWide_ascii (by rcases blank with ((rfl | rfl) | rfl) | rfl <;> decide),
    jsonTokens_eq, jsonTokens_eq strtod (toCStringWide u)]
  rcases blank with ((rfl | rfl) | rfl) | rfl <;> rfl

theorem jsonTokens_blanks {w : Units} (blank : ∀ c ∈ w, isBlank c = true) (u : Units) :
    jsonTokens strtod (toCStringWide (w ++ u)) = jsonTokens strtod (toCStringWide u) := by
  induction w with
  | nil => rfl
  | cons c w ih =>
    rw [List.cons_append, jsonTokens_blank (blank c List.mem_cons_self)]
    exact ih fun d hd => blank d (List.mem_cons_of_mem _ hd)

theorem jsonTokens_string (s u : Units) :
    jsonTokens strtod (toCStringWide (toQuotedString s ++ u)) =
      .next (.string s) (jsonTokens strtod (toCStringWide u)) := by
  rw [toQuotedString, List.cons_append, List.append_assoc, List.singleton_append,
    toCStringWide_ascii (by decide)]
  apply jsonTokens_next
  change (jsonParseString _ >>= _) = _
  rw [jsonParseString_quoted]
  rfl

theorem jsonTokens_name {c : UInt8} (first : isIdentFirst c = true)
    (others : ∀ d ∈ b, isIdentContinue d = true) (h : Delimited p) :
    jsonTokens strtod (c :: b ++ p) = .next (.ident (c :: b)) (jsonTokens strtod p) := by
  obtain ⟨taken, left⟩ := takeWhile_stop h.name
  have range := first
  simp only [isIdentFirst, Bool.or_eq_true, Bool.and_eq_true, decide_eq_true_eq] at range
  apply jsonTokens_next
  rw [List.cons_append, jsonNextToken, if_neg (by omega), if_neg (by omega), if_pos first,
    List.takeWhile_append_of_pos others, List.dropWhile_append_of_pos others, taken, left,
    List.append_nil]

/-- What `json_parse_number` takes starts with a sign or a digit. -/
theorem jsonParseNumber_start {c : UInt8} (h : jsonParseNumber (c :: b) = .ok (t, p)) :
    (isDigit c = true ∧ ¬ (c.toNat = 0x30 ∧ isDigit (peek b) = true)) ∨
      ((c.toNat = 0x2B ∨ c.toNat = 0x2D) ∧ isDigit (peek b) = true) := by
  by_cases sign : c.toNat = 0x2B ∨ c.toNat = 0x2D
  · have split : jsonSign (c :: b) = ([c], b) := if_pos sign
    refine .inr ⟨sign, ?_⟩
    by_contra none
    simp only [jsonParseNumber, split] at h
    rw [if_pos (by simpa using none)] at h
    cases h
  · have split : jsonSign (c :: b) = ([], c :: b) := if_neg sign
    simp only [jsonParseNumber, split] at h
    by_cases digit : isDigit c = true
    · refine .inl ⟨digit, fun zero => ?_⟩
      rw [if_neg (by simpa [peek] using digit), if_pos (by simpa [peek] using zero)] at h
      cases h
    · rw [if_pos (by simpa [peek] using digit)] at h
      cases h

theorem isDigit_range {c : UInt8} (h : isDigit c = true) : 0x30 ≤ c.toNat ∧ c.toNat ≤ 0x39 := by
  simpa [isDigit] using h

theorem jsonTokens_number (N : Numeral strtod t x) (h : Delimited p) :
    jsonTokens strtod (t ++ p) = .next (.number x) (jsonTokens strtod p) := by
  have parsed : jsonParseNumber (t ++ p) = .ok (t, p) := by
    rw [jsonParseNumber_append h, N.whole]
    rfl
  obtain ⟨-, whole, unsigned, value⟩ := N
  cases t with
  | nil => cases whole
  | cons c b =>
    apply jsonTokens_next
    have start := jsonParseNumber_start whole
    have low : 0x2D ≤ c.toNat ∧ c.toNat ≤ 0x39 := by
      rcases start with ⟨digit, -⟩ | ⟨sign | sign, -⟩
      · have := isDigit_range digit
        omega
      · exact absurd sign unsigned
      · omega
    have notName : isIdentFirst c = false := by
      simp only [isIdentFirst, Bool.or_eq_false_iff, Bool.and_eq_false_iff,
        decide_eq_false_iff_not]
      omega
    rw [List.cons_append] at parsed ⊢
    rw [jsonNextToken, if_neg (by omega), if_neg (by omega), if_neg (by simp [notName])]
    rw [isDigit_peek_append h, if_neg, if_neg, if_pos, parsed]
    · exact congrArg (fun y => Except.ok (some (Token.number y, p))) value
    · rcases start with ⟨digit, -⟩ | ⟨sign, -⟩
      · simp [digit]
      · have : c.toNat = 0x2D := sign.resolve_left unsigned
        simp [this]
    · rcases start with ⟨-, single⟩ | ⟨sign, -⟩
      · simpa using single
      · have : c.toNat ≠ 0x30 := by omega
        simp [this]
    · rcases start with ⟨digit, -⟩ | ⟨-, digit⟩
      · have := isDigit_range digit
        have : c.toNat ≠ 0x2D := by omega
        simp [this]
      · simp [digit]

end Quickjs
