import Goqjs.EngineStrings

/-!
# What the engine writes it reads back

Both directions go through code points, in which every surrogate pair is joined.
A buffer is well formed if it is what the engine writes for some string: no
encoding error, and no pair written as two sequences of three bytes.
-/

namespace Quickjs

open Pieces

theorem or_eq_add {a m i : Nat} (h : a < 2 ^ i) : a ||| 2 ^ i * m = 2 ^ i * m + a := by
  rw [Nat.or_comm, Nat.two_pow_add_eq_or_of_lt h]

theorem tail_eq (n : Nat) : n &&& 0x3F ||| 0x80 = 0x80 + n % 64 := by
  have low : n &&& 0x3F = n % 64 := Nat.and_two_pow_sub_one_eq_mod n 6
  have h : n % 64 < 2 ^ 6 := Nat.mod_lt _ (by decide)
  rw [low]
  exact or_eq_add (m := 2) h

theorem isHiSurrogate_iff (c : Nat) : isHiSurrogate c = true ↔ 0xD800 ≤ c ∧ c < 0xDC00 := by
  simp only [isHiSurrogate, Nat.shiftRight_eq_div_pow, beq_iff_eq]
  omega

theorem isLoSurrogate_iff (c : Nat) : isLoSurrogate c = true ↔ 0xDC00 ≤ c ∧ c < 0xE000 := by
  simp only [isLoSurrogate, Nat.shiftRight_eq_div_pow, beq_iff_eq]
  omega

theorem fromSurrogate_eq (hi lo : Nat) :
    fromSurrogate hi lo = 0x10000 + 1024 * (hi % 1024) + lo % 1024 := by
  have h := Nat.and_two_pow_sub_one_eq_mod hi 10
  have l := Nat.and_two_pow_sub_one_eq_mod lo 10
  simp only [fromSurrogate]
  rw [show (1023 : Nat) = 2 ^ 10 - 1 from rfl, h, l]

theorem getHiSurrogate_eq (c : Nat) : getHiSurrogate c = c / 1024 - 64 + 0xD800 := by
  simp only [getHiSurrogate, Nat.shiftRight_eq_div_pow]

theorem getLoSurrogate_eq (c : Nat) : getLoSurrogate c = 0xDC00 + c % 1024 := by
  have low : c &&& 0x3FF = c % 1024 := Nat.and_two_pow_sub_one_eq_mod c 10
  have h : c % 1024 < 2 ^ 10 := Nat.mod_lt _ (by decide)
  rw [getLoSurrogate, low]
  exact or_eq_add (m := 55) h

theorem utf8Encode_one {c : Nat} (h : c < 0x80) : utf8Encode c = [.ofNat c] := by
  simp [utf8Encode, h]

theorem utf8Encode_two {c : Nat} (h1 : 0x80 ≤ c) (h2 : c < 0x800) :
    utf8Encode c = [.ofNat (0xC0 + c / 64), .ofNat (0x80 + c % 64)] := by
  have lead : c >>> 6 ||| 0xC0 = 0xC0 + c / 64 := by
    rw [Nat.shiftRight_eq_div_pow]
    exact or_eq_add (m := 3) (i := 6) (by omega)
  rw [utf8Encode, if_neg (by omega), if_pos h2, lead, tail_eq]

theorem utf8Encode_three {c : Nat} (h1 : 0x800 ≤ c) (h2 : c < 0x10000) :
    utf8Encode c = [.ofNat (0xE0 + c / 4096), .ofNat (0x80 + c / 64 % 64),
      .ofNat (0x80 + c % 64)] := by
  have lead : c >>> 12 ||| 0xE0 = 0xE0 + c / 4096 := by
    rw [Nat.shiftRight_eq_div_pow]
    exact or_eq_add (m := 7) (i := 5) (by omega)
  rw [utf8Encode, if_neg (by omega), if_neg (by omega), if_pos h2, lead, tail_eq, tail_eq,
    Nat.shiftRight_eq_div_pow]

theorem utf8Encode_four {c : Nat} (h1 : 0x10000 ≤ c) (h2 : c < 0x110000) :
    utf8Encode c = [.ofNat (0xF0 + c / 262144), .ofNat (0x80 + c / 4096 % 64),
      .ofNat (0x80 + c / 64 % 64), .ofNat (0x80 + c % 64)] := by
  have lead : c >>> 18 ||| 0xF0 = 0xF0 + c / 262144 := by
    rw [Nat.shiftRight_eq_div_pow]
    exact or_eq_add (m := 15) (i := 4) (by omega)
  rw [utf8Encode, if_neg (by omega), if_neg (by omega), if_neg (by omega), if_pos h2, lead,
    tail_eq, tail_eq, tail_eq, Nat.shiftRight_eq_div_pow, Nat.shiftRight_eq_div_pow]

theorem toNat_ofNat_of_lt {n : Nat} (h : n < 256) : (UInt8.ofNat n).toNat = n := by
  simp [Nat.mod_eq_of_lt h]

/-- The buffer is long enough wherever `utf8_decode_len` looks at its length. -/
theorem utf8DecodeLen_eq (lead : UInt8) (p : Bytes) :
    utf8DecodeLen lead p = utf8Decode lead p := by
  have hlead := lead.toNat_lt
  match p with
  | [] =>
    simp only [utf8DecodeLen, List.length_nil, utf8Decode]
    repeat' split
    all_goals first | omega | rfl
  | [a] =>
    simp only [utf8DecodeLen, List.length_cons, List.length_nil, utf8Decode]
    repeat' split
    all_goals first | omega | rfl
  | [a, b] =>
    simp only [utf8DecodeLen, List.length_cons, List.length_nil, utf8Decode]
    repeat' split
    all_goals first | omega | rfl
  | a :: b :: d :: rest => simp [utf8DecodeLen]

theorem utf8Decode_two {c : Nat} (h1 : 0x80 ≤ c) (h2 : c < 0x800) (rest : Bytes) :
    utf8Decode (.ofNat (0xC0 + c / 64)) (.ofNat (0x80 + c % 64) :: rest) = (c, rest) := by
  simp only [utf8Decode, within, Nat.shiftLeft_eq]
  rw [toNat_ofNat_of_lt (by omega), toNat_ofNat_of_lt (by omega)]
  rw [if_neg (by omega), if_pos (by omega), if_pos (by simp; omega)]
  rw [Prod.mk.injEq]
  exact ⟨by omega, rfl⟩

theorem utf8Decode_three {c : Nat} (h1 : 0x800 ≤ c) (h2 : c < 0x10000) (rest : Bytes) :
    utf8Decode (.ofNat (0xE0 + c / 4096))
      (.ofNat (0x80 + c / 64 % 64) :: .ofNat (0x80 + c % 64) :: rest) = (c, rest) := by
  simp only [utf8Decode, within, Nat.shiftLeft_eq]
  rw [toNat_ofNat_of_lt (by omega), toNat_ofNat_of_lt (by omega), toNat_ofNat_of_lt (by omega)]
  rw [if_neg (by omega), if_neg (by omega), if_pos (by omega)]
  rw [if_pos (by simp; split <;> omega)]
  rw [Prod.mk.injEq]
  exact ⟨by omega, rfl⟩

theorem utf8Decode_four {c : Nat} (h1 : 0x10000 ≤ c) (h2 : c < 0x110000) (rest : Bytes) :
    utf8Decode (.ofNat (0xF0 + c / 262144))
      (.ofNat (0x80 + c / 4096 % 64) :: .ofNat (0x80 + c / 64 % 64) :: .ofNat (0x80 + c % 64)
        :: rest) = (c, rest) := by
  simp only [utf8Decode, within, Nat.shiftLeft_eq]
  rw [toNat_ofNat_of_lt (by omega), toNat_ofNat_of_lt (by omega), toNat_ofNat_of_lt (by omega),
    toNat_ofNat_of_lt (by omega)]
  rw [if_neg (by omega), if_neg (by omega), if_neg (by omega), if_pos (by omega)]
  rw [if_pos (by simp; split <;> split <;> omega)]
  rw [Prod.mk.injEq]
  exact ⟨by omega, rfl⟩

/-- What `utf8_encode` writes for a code point one turn of the loop reads. -/
theorem utf8Cutter_inverts {c : Nat} (h : c < 0x110000) :
    utf8Cutter.Inverts (fun s => utf8Encode s.1) (c, false) := by
  by_cases h1 : c < 0x80
  · refine ⟨.ofNat c, [], utf8Encode_one h1, fun rest => ?_⟩
    simp only [utf8Cutter, sequenceAt, List.nil_append]
    rw [toNat_ofNat_of_lt (by omega), if_pos h1]
  by_cases h2 : c < 0x800
  · refine ⟨_, _, utf8Encode_two (by omega) h2, fun rest => ?_⟩
    have d := utf8Decode_two (by omega) h2 rest
    simp only [utf8Cutter, sequenceAt, List.cons_append, List.nil_append, utf8DecodeLen_eq, d]
    rw [toNat_ofNat_of_lt (by omega), if_neg (by omega), beq_false_of_ne (by simp only [List.length_cons]; omega)]
  by_cases h3 : c < 0x10000
  · refine ⟨_, _, utf8Encode_three (by omega) h3, fun rest => ?_⟩
    have d := utf8Decode_three (by omega) h3 rest
    simp only [utf8Cutter, sequenceAt, List.cons_append, List.nil_append, utf8DecodeLen_eq, d]
    rw [toNat_ofNat_of_lt (by omega), if_neg (by omega), beq_false_of_ne (by simp only [List.length_cons]; omega)]
  · refine ⟨_, _, utf8Encode_four (by omega) h, fun rest => ?_⟩
    have d := utf8Decode_four (by omega) h rest
    simp only [utf8Cutter, sequenceAt, List.cons_append, List.nil_append, utf8DecodeLen_eq, d]
    rw [toNat_ofNat_of_lt (by omega), if_neg (by omega), beq_false_of_ne (by simp only [List.length_cons]; omega)]


theorem ofNat_eq_of_toNat {n : Nat} {b : UInt8} (h : n = b.toNat) : UInt8.ofNat n = b := by
  rw [h, UInt8.ofNat_toNat]

theorem within_iff (lower upper : Nat) (b : UInt8) :
    within lower upper b = true ↔ lower ≤ b.toNat ∧ b.toNat ≤ upper := by
  simp [within]

theorem utf8Encode_of_two {a b : UInt8} (ha : 0xC2 ≤ a.toNat ∧ a.toNat ≤ 0xDF)
    (hb : within 0x80 0xBF b = true) :
    utf8Encode (((a.toNat - 0xC0) <<< 6) + (b.toNat - 0x80)) = [a, b] := by
  rw [within_iff] at hb
  rw [Nat.shiftLeft_eq, utf8Encode_two (by omega) (by omega)]
  rw [ofNat_eq_of_toNat (b := a) (by omega), ofNat_eq_of_toNat (b := b) (by omega)]

theorem utf8Encode_of_three {a b d : UInt8} (ha : 0xE0 ≤ a.toNat ∧ a.toNat ≤ 0xEF)
    (hb : within (if a.toNat = 0xE0 then 0xA0 else 0x80) 0xBF b = true)
    (hd : within 0x80 0xBF d = true) :
    utf8Encode (((a.toNat - 0xE0) <<< 12) + ((b.toNat - 0x80) <<< 6) + (d.toNat - 0x80)) =
      [a, b, d] := by
  rw [within_iff] at hb hd
  have hb1 : 0x80 ≤ b.toNat := by split at hb <;> omega
  have hb2 : a.toNat = 0xE0 → 0xA0 ≤ b.toNat := by
    intro h
    rw [if_pos h] at hb
    exact hb.1
  simp only [Nat.shiftLeft_eq]
  rw [utf8Encode_three (by omega) (by omega)]
  rw [ofNat_eq_of_toNat (b := a) (by omega), ofNat_eq_of_toNat (b := b) (by omega),
    ofNat_eq_of_toNat (b := d) (by omega)]

theorem utf8Encode_of_four {a b d e : UInt8} (ha : 0xF0 ≤ a.toNat ∧ a.toNat ≤ 0xF4)
    (hb : within (if a.toNat = 0xF0 then 0x90 else 0x80) (if a.toNat = 0xF4 then 0x8F else 0xBF) b
      = true)
    (hd : within 0x80 0xBF d = true) (he : within 0x80 0xBF e = true) :
    (((a.toNat - 0xF0) <<< 18) + ((b.toNat - 0x80) <<< 12) + ((d.toNat - 0x80) <<< 6)
        + (e.toNat - 0x80)) < 0x110000 ∧
      utf8Encode (((a.toNat - 0xF0) <<< 18) + ((b.toNat - 0x80) <<< 12) + ((d.toNat - 0x80) <<< 6)
        + (e.toNat - 0x80)) = [a, b, d, e] := by
  rw [within_iff] at hb hd he
  have hb1 : 0x80 ≤ b.toNat ∧ b.toNat ≤ 0xBF := by
    obtain ⟨h1, h2⟩ := hb
    split at h1 <;> split at h2 <;> omega
  have hb2 : a.toNat = 0xF0 → 0x90 ≤ b.toNat := by
    intro h
    rw [if_pos h] at hb
    exact hb.1
  have hb3 : a.toNat = 0xF4 → b.toNat ≤ 0x8F := by
    intro h
    rw [if_pos h] at hb
    exact hb.2
  simp only [Nat.shiftLeft_eq]
  refine ⟨by omega, ?_⟩
  rw [utf8Encode_four (by omega) (by omega)]
  rw [ofNat_eq_of_toNat (b := a) (by omega), ofNat_eq_of_toNat (b := b) (by omega),
    ofNat_eq_of_toNat (b := d) (by omega), ofNat_eq_of_toNat (b := e) (by omega)]

/-- Either the bytes of a code point come off the buffer, or one byte of an error. -/
inductive Taken (lead : UInt8) (p : Bytes) : (Nat × Bool) × Bytes → Prop where
  | codePoint (c : Nat) (rest : Bytes) (valid : c < 0x110000)
      (bytes : lead :: p = utf8Encode c ++ rest) : Taken lead p ((c, false), rest)
  | error (notAscii : 0x80 ≤ lead.toNat) : Taken lead p ((0xFFFD, true), p)

theorem taken_of_decode {lead : UInt8} {p rest : Bytes} {c : Nat} (notAscii : ¬ lead.toNat < 0x80)
    (valid : c < 0x110000) (bytes : utf8Encode c ++ rest = lead :: p)
    (shorter : rest.length < p.length) (h : utf8Decode lead p = (c, rest)) :
    Taken lead p (sequenceAt lead p) := by
  simp only [sequenceAt, if_neg notAscii, utf8DecodeLen_eq, h]
  rw [beq_false_of_ne (by omega)]
  exact .codePoint c rest valid bytes.symm

theorem taken_of_error {lead : UInt8} {p : Bytes} (notAscii : ¬ lead.toNat < 0x80)
    (h : utf8Decode lead p = (0xFFFD, p)) : Taken lead p (sequenceAt lead p) := by
  simp only [sequenceAt, if_neg notAscii, utf8DecodeLen_eq, h, beq_self_eq_true]
  exact .error (by omega)

theorem sequenceAt_taken (lead : UInt8) (p : Bytes) : Taken lead p (sequenceAt lead p) := by
  by_cases h1 : lead.toNat < 0x80
  · rw [sequenceAt, if_pos h1]
    refine .codePoint _ _ (by omega) ?_
    rw [utf8Encode_one h1, ofNat_eq_of_toNat rfl]
    rfl
  by_cases h2 : 0xC2 ≤ lead.toNat ∧ lead.toNat ≤ 0xDF
  · cases p with
    | nil => exact taken_of_error h1 (by simp only [utf8Decode, if_neg h1, if_pos h2])
    | cons p0 rest =>
      by_cases tails : within 0x80 0xBF p0 = true
      · have bytes := utf8Encode_of_two h2 tails
        refine taken_of_decode (c := _) h1 ?_ (by rw [bytes]; rfl)
          (by simp only [List.length_cons]; omega)
          (by simp only [utf8Decode, if_neg h1, if_pos h2, if_pos tails])
        rw [within_iff] at tails
        rw [Nat.shiftLeft_eq]
        omega
      · exact taken_of_error h1 (by simp only [utf8Decode, if_neg h1, if_pos h2, if_neg tails])
  by_cases h3 : 0xE0 ≤ lead.toNat ∧ lead.toNat ≤ 0xEF
  · rcases p with _ | ⟨p0, _ | ⟨p1, rest⟩⟩
    · exact taken_of_error h1 (by simp only [utf8Decode, if_neg h1, if_neg h2, if_pos h3])
    · exact taken_of_error h1 (by simp only [utf8Decode, if_neg h1, if_neg h2, if_pos h3])
    · by_cases tails : (within (if lead.toNat = 0xE0 then 0xA0 else 0x80) 0xBF p0
        && within 0x80 0xBF p1) = true
      · obtain ⟨t0, t1⟩ := Bool.and_eq_true_iff.mp tails
        have bytes := utf8Encode_of_three h3 t0 t1
        refine taken_of_decode (c := _) h1 ?_ (by rw [bytes]; rfl)
          (by simp only [List.length_cons]; omega)
          (by simp only [utf8Decode, if_neg h1, if_neg h2, if_pos h3, if_pos tails])
        rw [within_iff] at t0 t1
        simp only [Nat.shiftLeft_eq]
        omega
      · exact taken_of_error h1
          (by simp only [utf8Decode, if_neg h1, if_neg h2, if_pos h3, if_neg tails])
  by_cases h4 : 0xF0 ≤ lead.toNat ∧ lead.toNat ≤ 0xF4
  · rcases p with _ | ⟨p0, _ | ⟨p1, _ | ⟨p2, rest⟩⟩⟩
    · exact taken_of_error h1
        (by simp only [utf8Decode, if_neg h1, if_neg h2, if_neg h3, if_pos h4])
    · exact taken_of_error h1
        (by simp only [utf8Decode, if_neg h1, if_neg h2, if_neg h3, if_pos h4])
    · exact taken_of_error h1
        (by simp only [utf8Decode, if_neg h1, if_neg h2, if_neg h3, if_pos h4])
    · by_cases tails : (within (if lead.toNat = 0xF0 then 0x90 else 0x80)
        (if lead.toNat = 0xF4 then 0x8F else 0xBF) p0 && within 0x80 0xBF p1
          && within 0x80 0xBF p2) = true
      · obtain ⟨t01, t2⟩ := Bool.and_eq_true_iff.mp tails
        obtain ⟨t0, t1⟩ := Bool.and_eq_true_iff.mp t01
        obtain ⟨valid, bytes⟩ := utf8Encode_of_four h4 t0 t1 t2
        exact taken_of_decode h1 valid (by rw [bytes]; rfl)
          (by simp only [List.length_cons]; omega)
          (by simp only [utf8Decode, if_neg h1, if_neg h2, if_neg h3, if_pos h4, if_pos tails])
      · exact taken_of_error h1
          (by simp only [utf8Decode, if_neg h1, if_neg h2, if_neg h3, if_pos h4, if_neg tails])
  · exact taken_of_error h1 (by simp only [utf8Decode, if_neg h1, if_neg h2, if_neg h3, if_neg h4])

/-- The reader's induction: the buffer is empty, starts with a code point or with an error. -/
theorem sequences_induction {P : Bytes → Prop} (nil : P [])
    (codePoint : ∀ c rest, c < 0x110000 → P rest → P (utf8Encode c ++ rest))
    (error : ∀ lead p, 0x80 ≤ lead.toNat → sequenceAt lead p = ((0xFFFD, true), p) → P p →
      P (lead :: p))
    (buf : Bytes) : P buf := by
  induction buf using utf8Cutter.induction with
  | nil => exact nil
  | cons lead p ih =>
    change P (sequenceAt lead p).2 at ih
    generalize hs : sequenceAt lead p = s at ih
    have taken := sequenceAt_taken lead p
    rw [hs] at taken
    cases taken with
    | codePoint c rest valid bytes =>
      rw [bytes]
      exact codePoint c rest valid ih
    | error notAscii => exact error lead p notAscii hs ih

@[simp] theorem sequences_nil : sequences [] = [] := rfl

theorem sequences_error {lead : UInt8} {p : Bytes}
    (h : sequenceAt lead p = ((0xFFFD, true), p)) :
    sequences (lead :: p) = (0xFFFD, true) :: sequences p := by
  rw [sequences, Cutter.cut_cons]
  change (sequenceAt lead p).1 :: utf8Cutter.cut (sequenceAt lead p).2 = _
  rw [h]
  rfl

theorem sequences_encode {c : Nat} (h : c < 0x110000) (rest : Bytes) :
    sequences (utf8Encode c ++ rest) = (c, false) :: sequences rest := by
  have one : ∀ s ∈ [(c, false)], utf8Cutter.Inverts (fun s => utf8Encode s.1) s := by
    intro s hs
    obtain rfl := List.mem_singleton.mp hs
    exact utf8Cutter_inverts h
  simpa [sequences] using utf8Cutter.cut_flatMap_append one rest

theorem sequences_flatMap_encode {cs : List Nat} (h : ∀ c ∈ cs, c < 0x110000) :
    sequences (cs.flatMap utf8Encode) = cs.map (fun c => (c, false)) := by
  induction cs with
  | nil => rfl
  | cons c cs ih =>
    rw [List.flatMap_cons, sequences_encode (h c List.mem_cons_self),
      ih (fun d hd => h d (List.mem_cons_of_mem _ hd)), List.map_cons]

end Quickjs
