import Goqjs.JsonGrammar

/-!
# What the lexer takes

The lexer takes whole sequences of UTF-8. It stops at a byte that belongs to none, so a text that is
read to its end has no encoding error anywhere.
-/

namespace Quickjs

open Binary64

def ErrorFree (buf : Bytes) : Prop := ∀ s ∈ sequences buf, s.2 = false

/-- `Cuts p rest`: whole sequences stand in front of `rest`. -/
inductive Cuts : Bytes → Bytes → Prop where
  | done (p : Bytes) : Cuts p p
  | codePoint {c : Nat} {p rest : Bytes} (valid : c < 0x110000) (more : Cuts p rest) :
      Cuts (utf8Encode c ++ p) rest

namespace Cuts

theorem trans {p q rest : Bytes} (first : Cuts p q) (last : Cuts q rest) : Cuts p rest := by
  induction first with
  | done => exact last
  | codePoint valid more ih => exact .codePoint valid (ih last)

theorem length_le {p rest : Bytes} (h : Cuts p rest) : rest.length ≤ p.length := by
  induction h with
  | done => exact Nat.le_refl _
  | codePoint valid more ih =>
    rw [List.length_append]
    omega

theorem errorFree_iff {p rest : Bytes} (h : Cuts p rest) : ErrorFree p ↔ ErrorFree rest := by
  induction h with
  | done => exact Iff.rfl
  | codePoint valid more ih =>
    rw [← ih, ErrorFree, sequences_encode valid, List.forall_mem_cons]
    exact and_iff_right rfl

theorem ascii {c : UInt8} (low : c.toNat < 0x80) {p rest : Bytes} (more : Cuts p rest) :
    Cuts (c :: p) rest := by
  have one : utf8Encode c.toNat = [c] := by rw [utf8Encode_one low, UInt8.ofNat_toNat]
  have step := codePoint (show c.toNat < 0x110000 by omega) more
  rwa [one] at step

theorem dropWhile {q : UInt8 → Bool} (low : ∀ c, q c = true → c.toNat < 0x80) (p : Bytes) :
    Cuts p (p.dropWhile q) := by
  induction p with
  | nil => exact .done []
  | cons c p ih =>
    rw [List.dropWhile_cons]
    split_ifs with more
    · exact ascii (low c more) ih
    · exact .done (c :: p)

end Cuts

/-- What `utf8_decode` finds at a byte above ASCII: a code point, or an error. -/
theorem utf8Decode_cases {lead : UInt8} (high : 0x80 ≤ lead.toNat) (p : Bytes) :
    (∃ c rest, c < 0x110000 ∧ 0x80 ≤ c ∧ lead :: p = utf8Encode c ++ rest ∧
      utf8Decode lead p = (c, rest) ∧ (rest.length == p.length) = false) ∨
    (utf8Decode lead p).2.length = p.length ∧ ¬ ErrorFree (lead :: p) := by
  have step : sequenceAt lead p =
      (((utf8Decode lead p).1, (utf8Decode lead p).2.length == p.length), (utf8Decode lead p).2) := by
    rw [sequenceAt, if_neg (by omega), utf8DecodeLen_eq]
  have taken := sequenceAt_taken lead p
  generalize hs : sequenceAt lead p = s at taken
  cases taken with
  | codePoint c rest valid bytes =>
    rw [hs, Prod.mk.injEq, Prod.mk.injEq] at step
    obtain ⟨⟨value, whole⟩, tail⟩ := step
    have large : 0x80 ≤ c := by
      by_contra small
      rw [utf8Encode_one (by omega)] at bytes
      obtain rfl := (List.cons.inj bytes).1
      rw [toNat_ofNat_of_lt (by omega)] at high
      omega
    refine .inl ⟨c, rest, valid, large, bytes, Prod.ext value.symm tail.symm, ?_⟩
    rw [tail]
    exact whole.symm
  | error notAscii =>
    rw [hs, Prod.mk.injEq, Prod.mk.injEq] at step
    refine .inr ⟨beq_iff_eq.mp step.1.2.symm, fun errorFree => ?_⟩
    have bad := errorFree (0xFFFD, true) (by
      rw [sequences_error hs]
      exact List.mem_cons_self)
    cases bad

theorem fromHex_ascii {n d : Nat} (h : fromHex n = some d) : n < 0x80 := by
  rw [fromHex] at h
  split_ifs at h <;> omega

theorem jsonHexDigits_cuts {n c x : Nat} {p rest : Bytes}
    (h : jsonHexDigits UInt8.toNat n c p = .ok (x, rest)) : Cuts p rest := by
  induction n generalizing c p with
  | zero =>
    cases h
    exact .done rest
  | succ n ih =>
    cases p with
    | nil => cases h
    | cons d p =>
      rw [jsonHexDigits] at h
      split at h
      · cases h
      · rename_i hex
        exact .ascii (fromHex_ascii hex) (ih h)

theorem jsonShortEscape_ascii {c x : Nat} (h : jsonShortEscape c = some x) : c < 0x80 := by
  rw [jsonShortEscape] at h
  split_ifs at h <;> omega

theorem jsonEscape_cuts {x : Nat} {p rest : Bytes} (h : jsonEscape UInt8.toNat p = .ok (x, rest)) :
    Cuts p rest := by
  cases p with
  | nil => cases h
  | cons c p =>
    rw [jsonEscape] at h
    split_ifs at h with hex
    · exact .ascii (by omega) (jsonHexDigits_cuts h)
    · split at h
      · rename_i short
        cases h
        exact .ascii (jsonShortEscape_ascii short) (.done rest)
      · cases h

theorem jsonParseStringFrom_cuts {n : Nat} {p rest : Bytes} {s : Units}
    (h : jsonParseStringFrom n p = .ok (s, rest)) : Cuts p rest := by
  induction n generalizing p s with
  | zero => cases h
  | succ n ih =>
    cases p with
    | nil => cases h
    | cons c p =>
      simp only [jsonParseStringFrom] at h
      split_ifs at h with quote control backslash high bad
      · cases h
        exact .ascii (by omega) (.done rest)
      · obtain ⟨⟨x, q⟩, escape, h⟩ := except_bind_iff.mp h
        obtain ⟨⟨t, r⟩, more, done⟩ := except_bind_iff.mp h
        cases done
        exact .ascii (by omega) ((jsonEscape_cuts escape).trans (ih more))
      · obtain ⟨⟨t, r⟩, more, done⟩ := except_bind_iff.mp h
        cases done
        rcases utf8Decode_cases high p with ⟨d, q, valid, -, bytes, value, -⟩ | ⟨same, -⟩
        · rw [value] at more
          rw [bytes]
          exact .codePoint valid (ih more)
        · exact absurd (beq_iff_eq.mpr same) bad
      · obtain ⟨⟨t, r⟩, more, done⟩ := except_bind_iff.mp h
        cases done
        exact .ascii (by omega) (ih more)

theorem isDigit_ascii (c : UInt8) (h : isDigit c = true) : c.toNat < 0x80 := by
  simp only [isDigit, Bool.and_eq_true, decide_eq_true_eq] at h
  omega

theorem isIdentContinue_ascii (c : UInt8) (h : isIdentContinue c = true) : c.toNat < 0x80 := by
  simp only [isIdentContinue, isIdentFirst, isDigit, Bool.or_eq_true, Bool.and_eq_true,
    decide_eq_true_eq] at h
  omega

theorem jsonSign_cuts (p : Bytes) : Cuts p (jsonSign p).2 := by
  cases p with
  | nil => exact .done []
  | cons c p =>
    rw [jsonSign]
    split_ifs with sign
    · exact .ascii (by omega) (.done p)
    · exact .done (c :: p)

theorem digits_cuts (p : Bytes) : Cuts p (digits p).2 := .dropWhile isDigit_ascii p

theorem jsonFraction_cuts {p text rest : Bytes} (h : jsonFraction p = .ok (text, rest)) :
    Cuts p rest := by
  cases p with
  | nil =>
    cases h
    exact .done []
  | cons c p =>
    rw [jsonFraction] at h
    split_ifs at h with point digit
    · cases h
      exact .ascii (by omega) (digits_cuts p)
    · cases h
      exact .done (c :: p)

theorem jsonExponent_cuts {p text rest : Bytes} (h : jsonExponent p = .ok (text, rest)) :
    Cuts p rest := by
  cases p with
  | nil =>
    cases h
    exact .done []
  | cons c p =>
    simp only [jsonExponent] at h
    split_ifs at h with e digit
    · cases h
      exact .ascii (by omega) ((jsonSign_cuts p).trans (digits_cuts _))
    · cases h
      exact .done (c :: p)

/-- A number has a digit at least. -/
theorem jsonParseNumber_cuts {p text rest : Bytes} (h : jsonParseNumber p = .ok (text, rest)) :
    Cuts p rest ∧ rest.length < p.length := by
  simp only [jsonParseNumber] at h
  split_ifs at h with digit zero
  obtain ⟨⟨fraction, q⟩, first, h⟩ := except_bind_iff.mp h
  obtain ⟨⟨exponent, r⟩, second, done⟩ := except_bind_iff.mp h
  cases done
  have sign := jsonSign_cuts p
  have tail := (jsonFraction_cuts first).trans (jsonExponent_cuts second)
  refine ⟨(sign.trans (digits_cuts _)).trans tail, ?_⟩
  have signed := sign.length_le
  generalize (jsonSign p).2 = body at digit tail signed
  cases body with
  | nil => exact absurd digit (by decide)
  | cons d body =>
    have isDigit : isDigit d = true := by simpa [peek] using digit
    have short := tail.length_le
    have int := (digits_cuts body).length_le
    simp only [digits, List.dropWhile_cons, if_pos isDigit, List.length_cons] at *
    omega

theorem jsonNextToken_cuts {strtod : Bytes → Double} {p rest : Bytes} {t : Token}
    (h : jsonNextToken strtod p = .ok (some (t, rest))) : Cuts p rest ∧ rest.length < p.length := by
  induction p with
  | nil => cases h
  | cons c p ih =>
    have step {q : Bytes} (low : c.toNat < 0x80) (more : Cuts p q) :
        Cuts (c :: p) q ∧ q.length < (c :: p).length :=
      ⟨.ascii low more, Nat.lt_succ_of_le more.length_le⟩
    rw [jsonNextToken] at h
    split_ifs at h with quote space ident minus zero number high bad
    · obtain ⟨⟨s, q⟩, string, done⟩ := except_bind_iff.mp h
      cases done
      exact step (by omega) (jsonParseStringFrom_cuts string)
    · obtain ⟨more, shorter⟩ := ih h
      exact step (by omega) more
    · cases h
      have first : isIdentContinue c = true := by
        rw [isIdentContinue, ident]
        rfl
      exact step (isIdentContinue_ascii c first) (.dropWhile isIdentContinue_ascii p)
    · obtain ⟨⟨text, q⟩, digits, done⟩ := except_bind_iff.mp h
      cases done
      exact jsonParseNumber_cuts digits
    · cases h
      exact step (by omega) (.done rest)

theorem jsonNextToken_end {strtod : Bytes → Double} {p : Bytes}
    (h : jsonNextToken strtod p = .ok none) : Cuts p [] := by
  induction p with
  | nil => exact .done []
  | cons c p ih =>
    rw [jsonNextToken] at h
    split_ifs at h with quote space ident minus zero number high bad
    · obtain ⟨⟨s, q⟩, string, done⟩ := except_bind_iff.mp h
      cases done
    · exact .ascii (by omega) (ih h)
    · cases h
    · obtain ⟨⟨text, q⟩, digits, done⟩ := except_bind_iff.mp h
      cases done
    · cases h

theorem jsonTokensFrom_enough (strtod : Bytes → Double) {n m : Nat} {p : Bytes}
    (hn : p.length ≤ n) (hm : p.length ≤ m) :
    jsonTokensFrom strtod n p = jsonTokensFrom strtod m p := by
  induction n generalizing m p with
  | zero =>
    obtain rfl := List.length_eq_zero_iff.mp (Nat.le_zero.mp hn)
    cases m <;> rfl
  | succ n ih =>
    rw [jsonTokensFrom, jsonTokensFrom]
    cases found : jsonNextToken strtod p with
    | error e => rfl
    | ok next =>
      cases next with
      | none => rfl
      | some next =>
        obtain ⟨t, rest⟩ := next
        have shorter := (jsonNextToken_cuts found).2
        cases m with
        | zero => omega
        | succ m => exact congrArg (Tokens.next t) (ih (by omega) (by omega))

/-- The tokens without the number that bounds their count. -/
theorem jsonTokens_eq (strtod : Bytes → Double) (p : Bytes) :
    jsonTokens strtod p =
      match jsonNextToken strtod p with
      | .error e => .error e
      | .ok none => .eof
      | .ok (some (t, rest)) => .next t (jsonTokens strtod rest) := by
  rw [jsonTokens, jsonTokensFrom]
  cases found : jsonNextToken strtod p with
  | error e => rfl
  | ok next =>
    cases next with
    | none => rfl
    | some next =>
      obtain ⟨t, rest⟩ := next
      have shorter := (jsonNextToken_cuts found).2
      cases hn : p.length with
      | zero => omega
      | succ n =>
        apply congrArg (Tokens.next t)
        exact jsonTokensFrom_enough strtod (by omega) (Nat.le_refl _)

/-- The lexer comes to the end of the buffer. -/
def Tokens.Complete : Tokens → Prop
  | .eof => True
  | .error _ => False
  | .next _ rest => rest.Complete

mutual

theorem ValueText.complete : ∀ {toks rest : Tokens} {v : Json}, ValueText toks v rest →
    rest.Complete → toks.Complete
  | _, _, _, .string _ _, h => h
  | _, _, _, .number _ _, h => h
  | _, _, _, .literal _ _, h => h
  | _, _, _, .emptyObject _, h => h
  | _, _, _, .emptyArray _, h => h
  | _, _, _, .object members, h => members.complete h
  | _, _, _, .array items, h => items.complete h

theorem MembersText.complete : ∀ {toks rest : Tokens} {fields fields' : List (Units × Json)},
    MembersText toks fields fields' rest → rest.Complete → toks.Complete
  | _, _, _, _, .last value, h => value.complete h
  | _, _, _, _, .more value others, h => value.complete (others.complete h)

theorem ElementsText.complete : ∀ {toks rest : Tokens} {items items' : List Json},
    ElementsText toks items items' rest → rest.Complete → toks.Complete
  | _, _, _, _, .last value, h => value.complete h
  | _, _, _, _, .more value others, h => value.complete (others.complete h)

end

theorem errorFree_of_complete {strtod : Bytes → Double} (n : Nat) {p : Bytes}
    (bound : p.length ≤ n) (h : (jsonTokens strtod p).Complete) : ErrorFree p := by
  induction n generalizing p with
  | zero =>
    obtain rfl := List.length_eq_zero_iff.mp (Nat.le_zero.mp bound)
    exact nofun
  | succ n ih =>
    rw [jsonTokens_eq] at h
    split at h
    · exact h.elim
    · rename_i found
      exact (jsonNextToken_end found).errorFree_iff.mpr nofun
    · rename_i found
      obtain ⟨cuts, shorter⟩ := jsonNextToken_cuts found
      exact cuts.errorFree_iff.mpr (ih (by omega) h)

/-- What the parser accepts is UTF-8, whatever it says. -/
theorem errorFree_of_parseJSON {strtod : Bytes → Double} {buf : Bytes} {v : Json}
    (h : parseJSON strtod buf = .ok v) : ErrorFree buf :=
  errorFree_of_complete buf.length (Nat.le_refl _) ((parseJSON_iff.mp h).complete trivial)

end Quickjs
