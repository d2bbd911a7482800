import Goqjs.Hex

/-!
# Percent coding

A byte is written as it is or as `%` and two hexadecimal digits. Writers differ in
which bytes they escape, and readers in which escapes and which plain bytes they
take; a `Coding` says both. In the form variant a space is written as `+`.
-/

namespace Percent

abbrev Bytes := List UInt8

abbrev percent : UInt8 := 0x25
abbrev plus : UInt8 := 0x2B
abbrev space : UInt8 := 0x20

structure Coding where
  escaped : UInt8 → Bool
  mayEscape : UInt8 → Bool
  mayStand : UInt8 → Bool
  form : Bool

namespace Coding

variable (k : Coding)

def encodeByte (c : UInt8) : Bytes :=
  if k.escaped c then
    if k.form && c = space then [plus]
    else [percent, Hex.upper (c.toNat / 16), Hex.upper (c.toNat % 16)]
  else [c]

def encode (s : Bytes) : Bytes := s.flatMap k.encodeByte

/-- What a byte that is no escape stands for. -/
def plain (c : UInt8) : UInt8 := if k.form && c = plus then space else c

def decode : Bytes → Option Bytes
  | [] => some []
  | c :: rest =>
    if c = percent then
      match rest with
      | h :: l :: after =>
        match Hex.value h, Hex.value l with
        | some x, some y =>
          if k.mayEscape (.ofNat (16 * x + y)) then
            (decode after).map (.ofNat (16 * x + y) :: ·)
          else none
        | _, _ => none
      | _ => none
    else if k.mayStand c then (decode rest).map (k.plain c :: ·)
    else none

/-- What the reader has read, piece by piece. -/
inductive Decoded : Bytes → Bytes → Prop where
  | nil : Decoded [] []
  | escape {h l : UInt8} {x y : Nat} {s t : Bytes} (hh : Hex.value h = some x)
      (hl : Hex.value l = some y) (may : k.mayEscape (.ofNat (16 * x + y)) = true)
      (rest : Decoded s t) : Decoded (percent :: h :: l :: s) (.ofNat (16 * x + y) :: t)
  | plain {c : UInt8} {s t : Bytes} (ne : c ≠ percent) (may : k.mayStand c = true)
      (rest : Decoded s t) : Decoded (c :: s) (k.plain c :: t)

variable {k}

theorem decode_of_decoded {s t : Bytes} (h : k.Decoded s t) : k.decode s = some t := by
  induction h with
  | nil => rfl
  | escape hh hl may rest ih =>
    rw [decode, if_pos rfl]
    simp only [hh, hl]
    rw [if_pos may, ih, Option.map_some]
  | @plain c s t ne may rest ih =>
    rw [decode.eq_def]
    simp only
    rw [if_neg ne, if_pos may, ih, Option.map_some]

theorem decoded_of_decode {s t : Bytes} (h : k.decode s = some t) : k.Decoded s t := by
  fun_induction decode generalizing t with
  | case1 =>
    cases h
    exact .nil
  | case2 h' l after x y hl hh may ih =>
    obtain ⟨u, hu, rfl⟩ := Option.map_eq_some_iff.mp h
    exact .escape hh hl may (ih hu)
  | case6 c rest ne may ih =>
    obtain ⟨u, hu, rfl⟩ := Option.map_eq_some_iff.mp h
    exact .plain ne may (ih hu)
  | _ => cases h

/-- The reader takes whatever the writer writes. -/
structure Faithful (k : Coding) : Prop where
  percent : k.escaped percent = true
  escape : ∀ c, k.escaped c = true → k.mayEscape c = true
  stand : ∀ c, k.escaped c = false → k.mayStand c = true
  plus : k.form = true → k.escaped plus = true ∧ k.mayStand Percent.plus = true

theorem decoded_escape {c : UInt8} (may : k.mayEscape c = true) {s t : Bytes}
    (rest : k.Decoded s t) :
    k.Decoded (Percent.percent :: Hex.upper (c.toNat / 16) :: Hex.upper (c.toNat % 16) :: s)
      (c :: t) := by
  have hc := c.toNat_lt
  have high := Hex.value_upper (show c.toNat / 16 < 16 by omega)
  have low := Hex.value_upper (show c.toNat % 16 < 16 by omega)
  have value : UInt8.ofNat (16 * (c.toNat / 16) + c.toNat % 16) = c := by
    rw [Nat.div_add_mod, UInt8.ofNat_toNat]
  have one := Decoded.escape high low (by rw [value]; exact may) rest
  rwa [value] at one

theorem decoded_encodeByte (f : k.Faithful) (c : UInt8) {s t : Bytes} (rest : k.Decoded s t) :
    k.Decoded (k.encodeByte c ++ s) (c :: t) := by
  unfold encodeByte
  split_ifs with escaped form
  · obtain ⟨isForm, rfl⟩ : k.form = true ∧ c = space := by simpa using form
    have read : k.plain Percent.plus = space := by simp [Coding.plain, isForm]
    exact read ▸ Decoded.plain (by decide) (f.plus isForm).2 rest
  · exact decoded_escape (f.escape c escaped) rest
  · have escaped := Bool.eq_false_iff.mpr escaped
    have ne : c ≠ percent := by
      rintro rfl
      rw [f.percent] at escaped
      cases escaped
    have read : k.plain c = c := by
      refine if_neg fun h => ?_
      obtain ⟨isForm, rfl⟩ : k.form = true ∧ c = Percent.plus := by simpa using h
      rw [(f.plus isForm).1] at escaped
      cases escaped
    have one := Decoded.plain ne (f.stand c escaped) rest
    rwa [read] at one

theorem decode_encode (f : k.Faithful) (s : Bytes) : k.decode (k.encode s) = some s := by
  apply decode_of_decoded
  induction s with
  | nil => exact .nil
  | cons c s ih => exact decoded_encodeByte f c ih

/-- A reader takes what another coding writes, and reads no form of its own into it. -/
structure Takes (reader writer : Coding) : Prop where
  notForm : writer.form = false
  percent : writer.escaped percent = true
  plus : writer.escaped plus = true
  escape : ∀ c, writer.escaped c = true → reader.mayEscape c = true
  stand : ∀ c, writer.escaped c = false → reader.mayStand c = true

theorem decode_encode_of {writer : Coding} (h : Takes k writer) (s : Bytes) :
    k.decode (writer.encode s) = some s := by
  apply decode_of_decoded
  induction s with
  | nil => exact .nil
  | cons c s ih =>
    change k.Decoded (writer.encodeByte c ++ writer.encode s) (c :: s)
    unfold encodeByte
    split_ifs with escaped form
    · simp [h.notForm] at form
    · exact decoded_escape (h.escape c escaped) ih
    · have escaped := Bool.eq_false_iff.mpr escaped
      have ne {d : UInt8} (hd : writer.escaped d = true) : c ≠ d := by
        rintro rfl
        rw [hd] at escaped
        cases escaped
      have read : k.plain c = c := by
        refine if_neg fun both => ne h.plus ?_
        rw [Bool.and_eq_true] at both
        exact of_decide_eq_true both.2
      have one := Decoded.plain (ne h.percent) (h.stand c escaped) ih
      rwa [read] at one

/-- The same writer with a reader that takes everything. -/
def lenient (k : Coding) : Coding :=
  { k with mayEscape := fun _ => true, mayStand := fun _ => true }

theorem encode_injective (percent : k.escaped percent = true)
    (plus : k.form = true → k.escaped plus = true) {s t : Bytes}
    (h : k.encode s = k.encode t) : s = t := by
  have f : k.lenient.Faithful := ⟨percent, fun _ _ => rfl, fun _ _ => rfl, fun hf => ⟨plus hf, rfl⟩⟩
  have read := decode_encode f s
  change k.lenient.decode (k.encode s) = some s at read
  rw [h] at read
  exact Option.some.inj (read.symm.trans (decode_encode f t))

theorem mem_encode {s : Bytes} {c : UInt8} (h : c ∈ k.encode s) :
    c = percent ∨ Hex.value c ≠ none ∨ (k.form = true ∧ c = plus) ∨
      (c ∈ s ∧ k.escaped c = false) := by
  obtain ⟨b, hb, hc⟩ := List.mem_flatMap.mp h
  have small := b.toNat_lt
  unfold encodeByte at hc
  split_ifs at hc with escaped form
  · simp only [Bool.and_eq_true] at form
    exact .inr (.inr (.inl ⟨form.1, List.mem_singleton.mp hc⟩))
  · simp only [List.mem_cons, List.not_mem_nil, or_false] at hc
    rcases hc with rfl | rfl | rfl
    · exact .inl rfl
    · exact .inr (.inl (by rw [Hex.value_upper (by omega)]; simp))
    · exact .inr (.inl (by rw [Hex.value_upper (by omega)]; simp))
  · obtain rfl := List.mem_singleton.mp hc
    exact .inr (.inr (.inr ⟨hb, by simpa using escaped⟩))

/-- A separator that the writer escapes does not occur in what it writes. -/
theorem notMem_encode {c : UInt8} (escaped : k.escaped c = true) (ne : c ≠ percent)
    (notDigit : Hex.value c = none) (notForm : k.form = false) (s : Bytes) : c ∉ k.encode s := by
  intro h
  rcases mem_encode h with h | h | h | h
  · exact ne h
  · exact h notDigit
  · rw [notForm] at h
    cases h.1
  · rw [escaped] at h
    cases h.2

theorem encode_eq_nil_iff {s : Bytes} : k.encode s = [] ↔ s = [] := by
  constructor
  · intro h
    cases s with
    | nil => rfl
    | cons c s =>
      have first := (List.append_eq_nil_iff.mp h).1
      unfold encodeByte at first
      split_ifs at first
  · rintro rfl
    rfl

@[simp] theorem plain_of_not_form (h : k.form = false) (c : UInt8) : k.plain c = c := by
  simp [Coding.plain, h]

/-- Without escapes a text stands for itself. -/
theorem decoded_self (notForm : k.form = false) {s : Bytes} (noPercent : percent ∉ s)
    (stand : ∀ c ∈ s, k.mayStand c = true) : k.Decoded s s := by
  induction s with
  | nil => exact .nil
  | cons c s ih =>
    have ne : c ≠ percent := by
      rintro rfl
      exact noPercent List.mem_cons_self
    have tail := ih (fun m => noPercent (List.mem_cons_of_mem _ m))
      (fun d hd => stand d (List.mem_cons_of_mem _ hd))
    have one := Decoded.plain ne (stand c List.mem_cons_self) tail
    rwa [plain_of_not_form notForm] at one

theorem Decoded.eq_of_noPercent (notForm : k.form = false) {s t : Bytes} (h : k.Decoded s t)
    (noPercent : Percent.percent ∉ s) : t = s := by
  induction h with
  | nil => rfl
  | escape hh hl may rest ih => exact absurd List.mem_cons_self noPercent
  | plain ne may rest ih =>
    rw [plain_of_not_form notForm, ih fun m => noPercent (List.mem_cons_of_mem _ m)]

theorem Decoded.mem (notForm : k.form = false) {s t : Bytes} (h : k.Decoded s t) {c : UInt8}
    (hc : c ∈ t) :
    (c ∈ s ∧ c ≠ Percent.percent ∧ k.mayStand c = true) ∨ k.mayEscape c = true := by
  induction h with
  | nil => cases hc
  | escape hh hl may rest ih =>
    rcases List.mem_cons.mp hc with rfl | hc
    · exact .inr may
    · rcases ih hc with ⟨m, facts⟩ | escaped
      · refine .inl ⟨?_, facts⟩
        simp only [List.mem_cons]
        exact .inr (.inr (.inr m))
      · exact .inr escaped
  | plain ne may rest ih =>
    rw [plain_of_not_form notForm] at hc
    rcases List.mem_cons.mp hc with rfl | hc
    · exact .inl ⟨List.mem_cons_self, ne, may⟩
    · rcases ih hc with ⟨m, facts⟩ | escaped
      · exact .inl ⟨List.mem_cons_of_mem _ m, facts⟩
      · exact .inr escaped

theorem Decoded.eq_nil_iff {s t : Bytes} (h : k.Decoded s t) : t = [] ↔ s = [] := by
  cases h <;> simp

theorem Decoded.append {s t u v : Bytes} (first : k.Decoded s t) (second : k.Decoded u v) :
    k.Decoded (s ++ u) (t ++ v) := by
  induction first with
  | nil => exact second
  | escape hh hl may rest ih => exact .escape hh hl may ih
  | plain ne may rest ih => exact .plain ne may ih

theorem Decoded.of_escape {h l : UInt8} {x y : Nat} {s t : Bytes} (hh : Hex.value h = some x)
    (hl : Hex.value l = some y) (read : k.Decoded (Percent.percent :: h :: l :: s) t) :
    ∃ v, t = .ofNat (16 * x + y) :: v ∧ k.Decoded s v := by
  cases read with
  | escape hh' hl' may tail =>
    cases hh.symm.trans hh'
    cases hl.symm.trans hl'
    exact ⟨_, rfl, tail⟩
  | plain ne may tail => exact absurd rfl ne

theorem Decoded.of_plain {c : UInt8} {s t : Bytes} (ne : c ≠ Percent.percent)
    (read : k.Decoded (c :: s) t) : ∃ v, t = k.plain c :: v ∧ k.Decoded s v := by
  cases read with
  | escape hh hl may tail => exact absurd rfl ne
  | plain ne' may tail => exact ⟨_, rfl, tail⟩

/-- What is read behind a text that can be read. -/
theorem Decoded.suffix {s a u t : Bytes} (first : k.Decoded s a) (whole : k.Decoded (s ++ u) t) :
    ∃ v, t = a ++ v ∧ k.Decoded u v := by
  induction first generalizing t with
  | nil => exact ⟨t, rfl, whole⟩
  | escape hh hl may rest ih =>
    obtain ⟨t, rfl, tail⟩ := whole.of_escape hh hl
    obtain ⟨v, rfl, read⟩ := ih tail
    exact ⟨v, rfl, read⟩
  | plain ne may rest ih =>
    obtain ⟨t, rfl, tail⟩ := whole.of_plain ne
    obtain ⟨v, rfl, read⟩ := ih tail
    exact ⟨v, rfl, read⟩

/-- No escape reaches over a byte that can be no part of one. -/
theorem Decoded.split {a b t : Bytes} {c : UInt8} (h : k.Decoded (a ++ c :: b) t)
    (ne : c ≠ Percent.percent) (notDigit : Hex.value c = none) :
    ∃ u v, t = u ++ v ∧ k.Decoded a u ∧ k.Decoded (c :: b) v := by
  generalize hs : a ++ c :: b = s at h
  induction h generalizing a with
  | nil => simp at hs
  | @escape h l x y s t hh hl may rest ih =>
    match a with
    | [] => exact absurd (List.cons.inj hs).1 ne
    | [_] =>
      have eq : c = h := (List.cons.inj (List.cons.inj hs).2).1
      rw [eq, hh] at notDigit
      cases notDigit
    | [_, _] =>
      have eq : c = l := (List.cons.inj (List.cons.inj (List.cons.inj hs).2).2).1
      rw [eq, hl] at notDigit
      cases notDigit
    | _ :: _ :: _ :: a =>
      simp only [List.cons_append, List.cons.injEq] at hs
      obtain ⟨rfl, rfl, rfl, tail⟩ := hs
      obtain ⟨u, v, rfl, left, right⟩ := ih tail
      exact ⟨_ :: u, v, rfl, .escape hh hl may left, right⟩
  | @plain d s t ne' may rest ih =>
    match a with
    | [] =>
      obtain ⟨rfl, rfl⟩ := List.cons.inj hs
      exact ⟨[], _, rfl, .nil, .plain ne' may rest⟩
    | _ :: a =>
      obtain ⟨rfl, tail⟩ := List.cons.inj hs
      obtain ⟨u, v, rfl, left, right⟩ := ih tail
      exact ⟨_ :: u, v, rfl, .plain ne' may left, right⟩

def weight (s : Bytes) : Nat := s.countP (fun c => c.toNat < 0x80)

@[simp] theorem weight_nil : weight [] = 0 := rfl
@[simp] theorem weight_append (s t : Bytes) : weight (s ++ t) = weight s + weight t :=
  List.countP_append

theorem weight_cons (c : UInt8) (s : Bytes) :
    weight (c :: s) = weight s + if c.toNat < 0x80 then 1 else 0 := by
  simp [weight, List.countP_cons]

theorem ascii_of_value {c : UInt8} {n : Nat} (h : Hex.value c = some n) : c.toNat < 0x80 := by
  unfold Hex.value at h
  split_ifs at h
  all_goals omega

/-- Each escape that is read costs two ASCII bytes or three. -/
theorem Decoded.weight_le (notForm : k.form = false) {s t : Bytes} (h : k.Decoded s t) :
    weight t + 2 * s.count Percent.percent ≤ weight s := by
  induction h with
  | nil => simp
  | @escape h l x y s t hh hl may rest ih =>
    have high := ascii_of_value hh
    have low := ascii_of_value hl
    have notPercent {c : UInt8} {n : Nat} (hc : Hex.value c = some n) : c ≠ Percent.percent := by
      rintro rfl
      cases hc
    rw [weight_cons, weight_cons, weight_cons, weight_cons, List.count_cons_self,
      List.count_cons_of_ne (notPercent hh), List.count_cons_of_ne (notPercent hl),
      if_pos high, if_pos low, if_pos (show Percent.percent.toNat < 0x80 by decide)]
    split <;> omega
  | @plain c s t ne may rest ih =>
    rw [plain_of_not_form notForm, weight_cons, weight_cons, List.count_cons_of_ne ne]
    omega

end Coding

end Percent
