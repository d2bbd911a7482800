import Mathlib.Data.List.Basic

/-!
# Base64

Three bytes are four digits of six bits. An `Encoding` is an alphabet with or
without padding; decoding skips line breaks and, as Go's does, returns the bytes
before an error along with it.
-/

namespace Base64

abbrev Bytes := List UInt8

def padChar : UInt8 := 0x3D

def isBreak (c : UInt8) : Bool := c == 0x0A || c == 0x0D

/-- A digit for every number below 64, none of them a line break or the padding. -/
structure Encoding where
  digit : Nat → UInt8
  value : UInt8 → Option Nat
  padded : Bool
  value_digit : ∀ n, n < 64 → value (digit n) = some n
  value_lt : ∀ c n, value c = some n → n < 64
  digit_value : ∀ c n, value c = some n → digit n = c
  value_pad : value padChar = none
  value_break : ∀ c, isBreak c = true → value c = none
  digit_ascii : ∀ n, n < 64 → (digit n).toNat < 0x80

/-- Letters, digits, and two characters for 62 and 63. -/
def alphabet (c62 c63 : UInt8) (n : Nat) : UInt8 :=
  if n < 26 then .ofNat (0x41 + n)
  else if n < 52 then .ofNat (0x61 + (n - 26))
  else if n < 62 then .ofNat (0x30 + (n - 52))
  else if n = 62 then c62
  else c63

def alphabetValue (c62 c63 : UInt8) (c : UInt8) : Option Nat :=
  if 0x41 ≤ c.toNat ∧ c.toNat ≤ 0x5A then some (c.toNat - 0x41)
  else if 0x61 ≤ c.toNat ∧ c.toNat ≤ 0x7A then some (c.toNat - 0x61 + 26)
  else if 0x30 ≤ c.toNat ∧ c.toNat ≤ 0x39 then some (c.toNat - 0x30 + 52)
  else if c = c62 then some 62
  else if c = c63 then some 63
  else none

theorem alphabetValue_lt {c62 c63 c : UInt8} {n : Nat} (h : alphabetValue c62 c63 c = some n) :
    n < 64 := by
  unfold alphabetValue at h
  split_ifs at h
  all_goals
    cases h
    omega

theorem alphabet_value {c62 c63 c : UInt8} {n : Nat} (h : alphabetValue c62 c63 c = some n) :
    alphabet c62 c63 n = c := by
  have back : ∀ m, m = c.toNat → UInt8.ofNat m = c := by
    rintro m rfl
    exact UInt8.ofNat_toNat
  unfold alphabetValue at h
  split_ifs at h with h1 h2 h3 h4 h5
  · cases h
    rw [alphabet, if_pos (by omega)]
    exact back _ (by omega)
  · cases h
    rw [alphabet, if_neg (by omega), if_pos (by omega)]
    exact back _ (by omega)
  · cases h
    rw [alphabet, if_neg (by omega), if_neg (by omega), if_pos (by omega)]
    exact back _ (by omega)
  · cases h
    exact h4.symm
  · cases h
    exact h5.symm

/-- `+` and `/`. -/
def std (padded : Bool) : Encoding where
  digit := alphabet 0x2B 0x2F
  value := alphabetValue 0x2B 0x2F
  padded := padded
  value_digit := by
    have all : ∀ n : Fin 64, alphabetValue 0x2B 0x2F (alphabet 0x2B 0x2F n.1) = some n.1 := by
      decide
    exact fun n h => all ⟨n, h⟩
  value_lt := fun _ _ h => alphabetValue_lt h
  digit_value := fun _ _ h => alphabet_value h
  value_pad := by decide
  value_break := by
    intro c h
    simp only [isBreak, Bool.or_eq_true, beq_iff_eq] at h
    rcases h with rfl | rfl <;> decide
  digit_ascii := by
    have all : ∀ n : Fin 64, (alphabet 0x2B 0x2F n.1).toNat < 0x80 := by decide
    exact fun n h => all ⟨n, h⟩

/-- `-` and `_`. -/
def url (padded : Bool) : Encoding where
  digit := alphabet 0x2D 0x5F
  value := alphabetValue 0x2D 0x5F
  padded := padded
  value_digit := by
    have all : ∀ n : Fin 64, alphabetValue 0x2D 0x5F (alphabet 0x2D 0x5F n.1) = some n.1 := by
      decide
    exact fun n h => all ⟨n, h⟩
  value_lt := fun _ _ h => alphabetValue_lt h
  digit_value := fun _ _ h => alphabet_value h
  value_pad := by decide
  value_break := by
    intro c h
    simp only [isBreak, Bool.or_eq_true, beq_iff_eq] at h
    rcases h with rfl | rfl <;> decide
  digit_ascii := by
    have all : ∀ n : Fin 64, (alphabet 0x2D 0x5F n.1).toNat < 0x80 := by decide
    exact fun n h => all ⟨n, h⟩

/-- `base64.StdEncoding`, `base64.RawStdEncoding` and the two URL-safe encodings. -/
def stdEncoding : Encoding := std true
def rawStdEncoding : Encoding := std false
def urlEncoding : Encoding := url true
def rawURLEncoding : Encoding := url false

/-- The 6-bit groups of a byte sequence, the last one filled up with zeros. -/
def sextets : Bytes → List Nat
  | [] => []
  | [a] => [a.toNat / 4, a.toNat % 4 * 16]
  | [a, b] => [a.toNat / 4, a.toNat % 4 * 16 + b.toNat / 16, b.toNat % 16 * 4]
  | a :: b :: c :: rest =>
    a.toNat / 4 :: (a.toNat % 4 * 16 + b.toNat / 16) :: (b.toNat % 16 * 4 + c.toNat / 64) ::
      c.toNat % 64 :: sextets rest

def padding (length : Nat) : Bytes := List.replicate ((3 - length % 3) % 3) padChar

/-- `EncodeToString`. -/
def encodeToString (e : Encoding) (src : Bytes) : Bytes :=
  (sextets src).map e.digit ++ if e.padded then padding src.length else []

def one (x y : Nat) : Bytes := [.ofNat (x * 4 + y / 16)]

def two (x y z : Nat) : Bytes := [.ofNat (x * 4 + y / 16), .ofNat (y * 16 + z / 4)]

def three (x y z w : Nat) : Bytes :=
  [.ofNat (x * 4 + y / 16), .ofNat (y * 16 + z / 4), .ofNat (z * 64 + w)]

/-- The quanta of an input without line breaks, up to the first error, and whether there is none. -/
def decodeQuanta (e : Encoding) : Bytes → Bytes × Bool
  | [] => ([], true)
  | [_] => ([], false)
  | [a, b] =>
    match e.value a, e.value b with
    | some x, some y => if e.padded then ([], false) else (one x y, true)
    | _, _ => ([], false)
  | [a, b, c] =>
    match e.value a, e.value b, e.value c with
    | some x, some y, some z => if e.padded then ([], false) else (two x y z, true)
    | _, _, _ => ([], false)
  | a :: b :: c :: d :: rest =>
    match e.value a, e.value b, e.value c, e.value d with
    | some x, some y, some z, some w =>
      (three x y z w ++ (decodeQuanta e rest).1, (decodeQuanta e rest).2)
    | some x, some y, some z, none =>
      if e.padded && d == padChar then (two x y z, rest.isEmpty) else ([], false)
    | some x, some y, none, _ =>
      if e.padded && c == padChar && d == padChar then (one x y, rest.isEmpty) else ([], false)
    | _, _, _, _ => ([], false)

/-- `DecodeString`: the bytes and whether it has returned no error. -/
def decodeString (e : Encoding) (src : Bytes) : Bytes × Bool :=
  decodeQuanta e (src.filter (fun c => !isBreak c))

theorem ofNat_eq {n : Nat} {b : UInt8} (h : n % 256 = b.toNat) : UInt8.ofNat n = b := by
  rw [← UInt8.toNat_inj, UInt8.toNat_ofNat']
  exact h

theorem one_sextets (a : UInt8) : one (a.toNat / 4) (a.toNat % 4 * 16) = [a] := by
  have ha := a.toNat_lt
  rw [one, ofNat_eq (b := a) (by omega)]

theorem two_sextets (a b : UInt8) :
    two (a.toNat / 4) (a.toNat % 4 * 16 + b.toNat / 16) (b.toNat % 16 * 4) = [a, b] := by
  have ha := a.toNat_lt
  have hb := b.toNat_lt
  rw [two, ofNat_eq (b := a) (by omega), ofNat_eq (b := b) (by omega)]

theorem three_sextets (a b c : UInt8) :
    three (a.toNat / 4) (a.toNat % 4 * 16 + b.toNat / 16) (b.toNat % 16 * 4 + c.toNat / 64)
      (c.toNat % 64) = [a, b, c] := by
  have ha := a.toNat_lt
  have hb := b.toNat_lt
  have hc := c.toNat_lt
  rw [three, ofNat_eq (b := a) (by omega), ofNat_eq (b := b) (by omega),
    ofNat_eq (b := c) (by omega)]

theorem sextets_lt (src : Bytes) : ∀ n ∈ sextets src, n < 64 := by
  induction src using sextets.induct with
  | case1 => simp [sextets]
  | case2 a =>
    have ha := a.toNat_lt
    simp only [sextets, List.mem_cons, List.not_mem_nil, or_false]
    rintro n (rfl | rfl) <;> omega
  | case3 a b =>
    have ha := a.toNat_lt
    have hb := b.toNat_lt
    simp only [sextets, List.mem_cons, List.not_mem_nil, or_false]
    rintro n (rfl | rfl | rfl) <;> omega
  | case4 a b c rest ih =>
    have ha := a.toNat_lt
    have hb := b.toNat_lt
    have hc := c.toNat_lt
    simp only [sextets, List.mem_cons]
    rintro n (rfl | rfl | rfl | rfl | hn)
    · omega
    · omega
    · omega
    · omega
    · exact ih n hn

variable (e : Encoding)

theorem value_digit_div (a : UInt8) : e.value (e.digit (a.toNat / 4)) = some (a.toNat / 4) :=
  e.value_digit _ (by have ha := a.toNat_lt; omega)

theorem not_break_of_value {c : UInt8} {n : Nat} (h : e.value c = some n) : isBreak c = false := by
  cases hb : isBreak c with
  | false => rfl
  | true =>
    rw [e.value_break c hb] at h
    cases h

/-- No line breaks in what an encoder writes. -/
theorem filter_encodeToString (src : Bytes) :
    (encodeToString e src).filter (fun c => !isBreak c) = encodeToString e src := by
  refine List.filter_eq_self.mpr fun c hc => ?_
  rcases List.mem_append.mp hc with hc | hc
  · obtain ⟨n, hn, rfl⟩ := List.mem_map.mp hc
    rw [not_break_of_value e (e.value_digit n (sextets_lt src n hn))]
    rfl
  · split at hc
    · obtain ⟨_, rfl⟩ := List.mem_replicate.mp hc
      rfl
    · cases hc

/-- A decoder for the same alphabet and the same padding. -/
theorem decodeQuanta_encodeToString (src : Bytes) :
    decodeQuanta e (encodeToString e src) = (src, true) := by
  induction src using sextets.induct with
  | case1 => cases hp : e.padded <;> simp [encodeToString, sextets, hp, padding, decodeQuanta]
  | case2 a =>
    have v1 := value_digit_div e a
    have v2 := e.value_digit (a.toNat % 4 * 16) (by omega)
    cases hp : e.padded
    · simp [encodeToString, sextets, hp, decodeQuanta, v1, v2, one_sextets]
    · simp [encodeToString, sextets, hp, padding, decodeQuanta, v1, v2, one_sextets,
        List.replicate, e.value_pad]
  | case3 a b =>
    have hb := b.toNat_lt
    have v1 := value_digit_div e a
    have v2 := e.value_digit (a.toNat % 4 * 16 + b.toNat / 16) (by omega)
    have v3 := e.value_digit (b.toNat % 16 * 4) (by omega)
    cases hp : e.padded
    · simp [encodeToString, sextets, hp, decodeQuanta, v1, v2, v3, two_sextets]
    · simp [encodeToString, sextets, hp, padding, decodeQuanta, v1, v2, v3, two_sextets,
        e.value_pad]
  | case4 a b c rest ih =>
    have hb := b.toNat_lt
    have hc := c.toNat_lt
    have v1 := value_digit_div e a
    have v2 := e.value_digit (a.toNat % 4 * 16 + b.toNat / 16) (by omega)
    have v3 := e.value_digit (b.toNat % 16 * 4 + c.toNat / 64) (by omega)
    have v4 := e.value_digit (c.toNat % 64) (by omega)
    have length : padding (a :: b :: c :: rest).length = padding rest.length := by
      simp only [padding, List.length_cons]
      congr 1
      omega
    rw [encodeToString] at ih
    rw [encodeToString, length]
    simp only [sextets, List.map_cons, List.cons_append, decodeQuanta, v1, v2, v3, v4, ih,
      three_sextets, List.nil_append]

theorem decodeString_encodeToString (src : Bytes) :
    decodeString e (encodeToString e src) = (src, true) := by
  rw [decodeString, filter_encodeToString, decodeQuanta_encodeToString]

/-- A padded decoder on unpadded digits: a quantum that is not full is an error. -/
theorem decodeQuanta_digits {e : Encoding} (hp : e.padded = true) (src : Bytes) :
    (decodeQuanta e ((sextets src).map e.digit)).2 = true → src.length % 3 = 0 := by
  induction src using sextets.induct with
  | case1 => intro _; rfl
  | case2 a =>
    have v1 := value_digit_div e a
    have v2 := e.value_digit (a.toNat % 4 * 16) (by omega)
    simp [sextets, decodeQuanta, v1, v2, hp]
  | case3 a b =>
    have hb := b.toNat_lt
    have v1 := value_digit_div e a
    have v2 := e.value_digit (a.toNat % 4 * 16 + b.toNat / 16) (by omega)
    have v3 := e.value_digit (b.toNat % 16 * 4) (by omega)
    simp [sextets, decodeQuanta, v1, v2, v3, hp]
  | case4 a b c rest ih =>
    have hb := b.toNat_lt
    have hc := c.toNat_lt
    have v1 := value_digit_div e a
    have v2 := e.value_digit (a.toNat % 4 * 16 + b.toNat / 16) (by omega)
    have v3 := e.value_digit (b.toNat % 16 * 4 + c.toNat / 64) (by omega)
    have v4 := e.value_digit (c.toNat % 64) (by omega)
    intro h
    simp only [sextets, List.map_cons, decodeQuanta, v1, v2, v3, v4] at h
    have rest3 := ih h
    simp only [List.length_cons]
    omega

/-- Only digits and padding are read without an error. -/
theorem known_of_decodeQuanta (l : Bytes) (h : (decodeQuanta e l).2 = true) :
    ∀ c ∈ l, e.value c ≠ none ∨ c = padChar := by
  fun_induction decodeQuanta e l with
  | case1 => simp
  | case4 a b x y hb ha => simp [ha, hb]
  | case7 a b c x y z hc hb ha => simp [ha, hb, hc]
  | case9 a b c d rest x y z w hd hc hb ha ih =>
    intro t ht
    rcases List.mem_cons.mp ht with rfl | ht
    · simp [ha]
    rcases List.mem_cons.mp ht with rfl | ht
    · simp [hb]
    rcases List.mem_cons.mp ht with rfl | ht
    · simp [hc]
    rcases List.mem_cons.mp ht with rfl | ht
    · simp [hd]
    · exact ih h t ht
  | case10 a b c d rest x y z hd hc hb ha pad =>
    obtain rfl : rest = [] := List.isEmpty_iff.mp h
    obtain ⟨_, rfl⟩ : e.padded = true ∧ d = padChar := by simpa using pad
    simp [ha, hb, hc]
  | case12 a b c d rest x y hc hb ha pad =>
    obtain rfl : rest = [] := List.isEmpty_iff.mp h
    obtain ⟨⟨_, rfl⟩, rfl⟩ : (e.padded = true ∧ c = padChar) ∧ d = padChar := by simpa using pad
    simp [ha, hb]
  | _ => cases h

/-- A character that is neither a digit nor padding nor a line break makes any text an error. -/
theorem decodeString_foreign {c : UInt8} {src : Bytes} (hc : c ∈ src) (digit : e.value c = none)
    (pad : c ≠ padChar) (noBreak : isBreak c = false) : (decodeString e src).2 = false := by
  rw [← Bool.not_eq_true, decodeString]
  intro h
  have kept : c ∈ src.filter (fun c => !isBreak c) := List.mem_filter.mpr ⟨hc, by simp [noBreak]⟩
  rcases known_of_decodeQuanta e _ h c kept with h | h
  · exact h digit
  · exact pad h

/-- Only digits and padding are written. -/
theorem known_of_mem_encodeToString {src : Bytes} {c : UInt8} (h : c ∈ encodeToString e src) :
    e.value c ≠ none ∨ c = padChar := by
  refine known_of_decodeQuanta e (encodeToString e src) ?_ c h
  rw [decodeQuanta_encodeToString]

theorem encodeToString_ascii (src : Bytes) : ∀ c ∈ encodeToString e src, c.toNat < 0x80 := by
  intro c hc
  rcases List.mem_append.mp hc with hc | hc
  · obtain ⟨n, hn, rfl⟩ := List.mem_map.mp hc
    exact e.digit_ascii n (sextets_lt src n hn)
  · split at hc
    · obtain ⟨_, rfl⟩ := List.mem_replicate.mp hc
      decide
    · cases hc

/-- Both alphabets have the same digits below 62. -/
theorem alphabet_of_lt {c62 c63 d62 d63 : UInt8} {n : Nat} (h : n < 62) :
    alphabet c62 c63 n = alphabet d62 d63 n := by
  unfold alphabet
  split_ifs <;> rfl

/-- Without the groups 62 and 63 the two texts are one. -/
theorem encodeToString_url_eq (padded : Bool) {src : Bytes} (h : ∀ n ∈ sextets src, n < 62) :
    encodeToString (url padded) src = encodeToString (std padded) src := by
  have same : (sextets src).map (alphabet 0x2D 0x5F) = (sextets src).map (alphabet 0x2B 0x2F) :=
    List.map_congr_left fun n hn => alphabet_of_lt (h n hn)
  simp only [encodeToString, url, std, same]
  rfl

/-- With one of them the URL-safe text is foreign to a standard decoder, padded or not. -/
theorem decodeString_std_url (padded padded' : Bool) {src : Bytes}
    (h : ∃ n ∈ sextets src, 62 ≤ n) :
    (decodeString (std padded) (encodeToString (url padded') src)).2 = false := by
  obtain ⟨n, hn, large⟩ := h
  have hlt := sextets_lt src n hn
  have written : (url padded').digit n ∈ encodeToString (url padded') src :=
    List.mem_append_left _ (List.mem_map.mpr ⟨n, hn, rfl⟩)
  obtain rfl | rfl : n = 62 ∨ n = 63 := by omega
  · have digit : alphabetValue 0x2B 0x2F 0x2D = none := by decide
    exact decodeString_foreign (std padded) (c := 0x2D) written digit (by decide) (by decide)
  · have digit : alphabetValue 0x2B 0x2F 0x5F = none := by decide
    exact decodeString_foreign (std padded) (c := 0x5F) written digit (by decide) (by decide)

end Base64
