import Goqjs.EngineRoundTrip
import Goqjs.Percent
import Goqjs.Separators

/-!
# Text through a string of the engine

Bytes that are made a string and read back change where they are no UTF-8, but their
ASCII bytes stay, in number and in order, and no piece reaches over one. So a string put
together from pieces at ASCII bytes is the string of the bytes put together.
-/

namespace Quickjs

open Pieces Separators

/-- `JS_ConcatString`. -/
def Str.concat : Str → Str → Str
  | .narrow a, .narrow b => .narrow (a ++ b)
  | s, t => .wide (s.units ++ t.units)

@[simp] theorem units_concat (s t : Str) : (s.concat t).units = s.units ++ t.units := by
  cases s <;> cases t <;> simp [Str.concat, Str.units]

/-- What Go reads of a string that it has made. -/
def viaString (buf : Bytes) : Bytes := toCStringLen (newStringLen buf)

theorem viaString_eq_iff {buf : Bytes} : viaString buf = buf ↔ WellFormed buf :=
  toCStringLen_newStringLen_iff buf

theorem viaString_toCStringLen (s : Str) : viaString (toCStringLen s) = toCStringLen s :=
  viaString_eq_iff.mpr (wellFormed_toCStringLen s)

theorem utf8Encode_notAscii {c : Nat} (valid : c < 0x110000) (h : 0x80 ≤ c) :
    ∀ b ∈ utf8Encode c, 0x80 ≤ b.toNat := by
  intro b hb
  by_cases two : c < 0x800
  · rw [utf8Encode_two h two] at hb
    simp only [List.mem_cons, List.not_mem_nil, or_false] at hb
    rcases hb with rfl | rfl <;> rw [toNat_ofNat_of_lt (by omega)] <;> omega
  · by_cases three : c < 0x10000
    · rw [utf8Encode_three (by omega) three] at hb
      simp only [List.mem_cons, List.not_mem_nil, or_false] at hb
      rcases hb with rfl | rfl | rfl <;> rw [toNat_ofNat_of_lt (by omega)] <;> omega
    · rw [utf8Encode_four (by omega) valid] at hb
      simp only [List.mem_cons, List.not_mem_nil, or_false] at hb
      rcases hb with rfl | rfl | rfl | rfl <;> rw [toNat_ofNat_of_lt (by omega)] <;> omega

theorem sequenceAt_encode {c : Nat} (valid : c < 0x110000) {lead : UInt8} {p rest : Bytes}
    (h : lead :: p = utf8Encode c ++ rest) : sequenceAt lead p = ((c, false), rest) := by
  obtain ⟨a, more, henc, hnext⟩ := utf8Cutter_inverts valid
  have bytes : lead :: p = a :: (more ++ rest) := h.trans (by simp only [henc, List.cons_append])
  obtain ⟨rfl, rfl⟩ := List.cons.inj bytes
  exact hnext rest

/-- An error stays one whatever follows behind an ASCII byte. -/
theorem sequenceAt_error_append {lead : UInt8} {p : Bytes} (notAscii : 0x80 ≤ lead.toNat)
    (h : sequenceAt lead p = ((0xFFFD, true), p)) {c : UInt8} (ascii : c.toNat < 0x80)
    (rest : Bytes) : sequenceAt lead (p ++ c :: rest) = ((0xFFFD, true), p ++ c :: rest) := by
  have taken := sequenceAt_taken lead (p ++ c :: rest)
  generalize hs : sequenceAt lead (p ++ c :: rest) = s at taken
  cases taken with
  | error _ => rfl
  | codePoint d after valid bytes =>
    exfalso
    have large : 0x80 ≤ d := by
      by_contra small
      rw [utf8Encode_one (by omega)] at bytes
      have eq := congrArg UInt8.toNat (List.cons.inj bytes).1
      rw [toNat_ofNat_of_lt (by omega)] at eq
      omega
    have high := utf8Encode_notAscii valid large
    rcases List.append_eq_append_iff.mp (show (lead :: p) ++ c :: rest = _ from bytes) with
      ⟨more, henc, htail⟩ | ⟨more, hwhole, _⟩
    · cases more with
      | nil =>
        rw [List.append_nil] at henc
        have whole : lead :: p = utf8Encode d ++ [] := by rw [henc, List.append_nil]
        rw [sequenceAt_encode valid whole] at h
        simp at h
      | cons m more =>
        have eq : c = m := (List.cons.inj htail).1
        have mem : c ∈ utf8Encode d := by
          rw [henc, ← eq]
          simp
        have bound := high c mem
        omega
    · rw [sequenceAt_encode valid hwhole] at h
      simp at h

theorem sequences_append_ascii (a : Bytes) {c : UInt8} (ascii : c.toNat < 0x80) (b : Bytes) :
    sequences (a ++ c :: b) = sequences a ++ sequences (c :: b) := by
  induction a using sequences_induction with
  | nil => rfl
  | codePoint d rest valid ih =>
    rw [List.append_assoc, sequences_encode valid, sequences_encode valid, ih, List.cons_append]
  | error lead p notAscii hs ih =>
    have tail := sequenceAt_error_append notAscii hs ascii b
    rw [List.cons_append, sequences_error tail, sequences_error hs, ih, List.cons_append]

theorem units_newStringLen_append (a : Bytes) {c : UInt8} (ascii : c.toNat < 0x80) (b : Bytes) :
    (newStringLen (a ++ c :: b)).units = (newStringLen a).units ++ (newStringLen (c :: b)).units := by
  simp only [units_newStringLen, utf8DecodeBuf16, sequences_append_ascii a ascii b,
    List.flatMap_append]

theorem units_newStringLen_cons {c : UInt8} (ascii : c.toNat < 0x80) (b : Bytes) :
    (newStringLen (c :: b)).units = UInt16.ofNat c.toNat :: (newStringLen b).units := by
  simp only [units_newStringLen, utf8DecodeBuf16, sequences_ascii_cons ascii, List.flatMap_cons,
    wordsOf, if_neg (show ¬ c.toNat > 0xFFFF by omega)]
  rfl

theorem units_led {c : UInt8} (ascii : c.toNat < 0x80) (a : Bytes) (o : Option Bytes) :
    (newStringLen (a ++ led c o)).units =
      (newStringLen a).units ++ (newStringLen (led c o)).units := by
  cases o with
  | none => simp [newStringLen, Str.units]
  | some b => exact units_newStringLen_append a ascii b

theorem units_closed {c : UInt8} (ascii : c.toNat < 0x80) (o : Option Bytes) (b : Bytes) :
    (newStringLen (closed c o ++ b)).units =
      (newStringLen (closed c o)).units ++ (newStringLen b).units := by
  cases o with
  | none => simp [newStringLen, Str.units]
  | some a =>
    have whole := units_newStringLen_append a ascii b
    have first := units_newStringLen_append a ascii []
    have empty : (newStringLen []).units = [] := rfl
    rw [units_newStringLen_cons ascii] at whole first
    rw [closed_some, List.append_assoc, List.singleton_append, whole, first, empty]
    simp

theorem units_eq_nil_iff (buf : Bytes) : (newStringLen buf).units = [] ↔ buf = [] := by
  constructor
  · intro h
    rw [units_newStringLen, utf8DecodeBuf16] at h
    induction buf using sequences_induction with
    | nil => rfl
    | codePoint d rest valid ih =>
      rw [sequences_encode valid, List.flatMap_cons] at h
      have none := (List.append_eq_nil_iff.mp h).1
      unfold wordsOf at none
      split_ifs at none
    | error lead q notAscii hs ih =>
      rw [sequences_error hs, List.flatMap_cons] at h
      have none := (List.append_eq_nil_iff.mp h).1
      cases none
  · rintro rfl
    rfl

theorem codePoints_ascii_cons {c : UInt16} (ascii : c.toNat < 0x80) (b : Units) :
    codePoints (c :: b) = c.toNat :: codePoints b := by
  cases b with
  | nil => rfl
  | cons d b =>
    have notHi : ¬ (isHiSurrogate c.toNat && isLoSurrogate d.toNat) = true := by
      intro pair
      have range := (isHiSurrogate_iff _).mp (Bool.and_eq_true_iff.mp pair).1
      omega
    rw [codePoints, if_neg notHi]

theorem codePoints_append_ascii (a : Units) {c : UInt16} (ascii : c.toNat < 0x80) (b : Units) :
    codePoints (a ++ c :: b) = codePoints a ++ codePoints (c :: b) := by
  induction a using codePoints.induct with
  | case1 => rfl
  | case2 d =>
    have notLo : ¬ (isHiSurrogate d.toNat && isLoSurrogate c.toNat) = true := by
      intro pair
      have range := (isLoSurrogate_iff _).mp (Bool.and_eq_true_iff.mp pair).2
      omega
    simp only [List.cons_append, List.nil_append, codePoints, if_neg notLo]
  | case3 d d1 rest pair ih =>
    simp only [List.cons_append, codePoints, if_pos pair]
    rw [ih]
  | case4 d d1 rest single ih =>
    simp only [List.cons_append] at ih
    simp only [List.cons_append, codePoints, if_neg single]
    rw [ih]

theorem viaString_append_cons (a : Bytes) {c : UInt8} (ascii : c.toNat < 0x80) (b : Bytes) :
    viaString (a ++ c :: b) = viaString a ++ c :: viaString b := by
  have unit : (UInt16.ofNat c.toNat).toNat = c.toNat := toNat_ofNat16_of_lt (by omega)
  have one : utf8Encode c.toNat = [c] := by
    rw [utf8Encode_one ascii, UInt8.ofNat_toNat]
  simp only [viaString, toCStringLen_eq]
  rw [units_newStringLen_append a ascii, units_newStringLen_cons ascii,
    codePoints_append_ascii _ (by omega), codePoints_ascii_cons (by omega), unit,
    List.flatMap_append, List.flatMap_cons, one, List.singleton_append]

@[simp] theorem viaString_nil : viaString [] = [] := rfl

theorem viaString_led {c : UInt8} (ascii : c.toNat < 0x80) (a : Bytes) (o : Option Bytes) :
    viaString (a ++ led c o) = viaString a ++ led c (o.map viaString) := by
  cases o with
  | none => simp
  | some b => exact viaString_append_cons a ascii b

theorem viaString_closed {c : UInt8} (ascii : c.toNat < 0x80) (o : Option Bytes) (b : Bytes) :
    viaString (closed c o ++ b) = closed c (o.map viaString) ++ viaString b := by
  cases o with
  | none => simp
  | some a => simpa using viaString_append_cons a ascii b

def isAscii (c : UInt8) : Bool := c.toNat < 0x80

theorem filter_utf8Encode {c : Nat} (valid : c < 0x110000) :
    (utf8Encode c).filter isAscii = if c < 0x80 then [.ofNat c] else [] := by
  split_ifs with h
  · have eq := toNat_ofNat_of_lt (show c < 256 by omega)
    rw [utf8Encode_one h]
    simp only [List.filter_cons, isAscii, eq, h, decide_true, if_pos, List.filter_nil]
  · have high := utf8Encode_notAscii valid (by omega)
    refine List.filter_eq_nil_iff.mpr fun b hb => ?_
    have bound := high b hb
    simp only [isAscii, decide_eq_true_eq]
    omega

theorem filter_codePoints (s : Units) :
    ((codePoints s).flatMap utf8Encode).filter isAscii =
      (s.filter (fun u => u.toNat < 0x80)).map (fun u => .ofNat u.toNat) := by
  have valid := codePoints_valid s
  induction s using codePoints.induct with
  | case1 => rfl
  | case2 c =>
    have hc := c.toNat_lt
    simp only [codePoints, List.flatMap_cons, List.flatMap_nil, List.append_nil,
      filter_utf8Encode (show c.toNat < 0x110000 by omega), List.filter_cons, List.filter_nil]
    by_cases h : c.toNat < 0x80 <;> simp [h]
  | case3 c c1 rest pair ih =>
    obtain ⟨hi, lo⟩ := Bool.and_eq_true_iff.mp pair
    have large := (fromSurrogate_range c.toNat c1.toNat).1
    have hiRange := (isHiSurrogate_iff _).mp hi
    have loRange := (isLoSurrogate_iff _).mp lo
    simp only [codePoints, if_pos pair] at valid ⊢
    have tail := ih fun d hd => valid d (List.mem_cons_of_mem _ hd)
    rw [List.flatMap_cons, List.filter_append, tail,
      filter_utf8Encode (valid _ List.mem_cons_self), if_neg (by omega), List.filter_cons_of_neg,
      List.filter_cons_of_neg, List.nil_append]
    · simp only [decide_eq_true_eq]
      omega
    · simp only [decide_eq_true_eq]
      omega
  | case4 c c1 rest single ih =>
    simp only [codePoints, if_neg single] at valid ⊢
    have tail := ih fun d hd => valid d (List.mem_cons_of_mem _ hd)
    rw [List.flatMap_cons, List.filter_append, tail,
      filter_utf8Encode (valid _ List.mem_cons_self)]
    by_cases h : c.toNat < 0x80
    · rw [if_pos h, List.filter_cons_of_pos (a := c) (by simpa using h)]
      rfl
    · rw [if_neg h, List.filter_cons_of_neg (a := c) (by simpa using h), List.nil_append]

theorem filter_decodeBuf16 (buf : Bytes) :
    ((utf8DecodeBuf16 buf).filter (fun u => u.toNat < 0x80)).map (fun u => UInt8.ofNat u.toNat) =
      buf.filter isAscii := by
  induction buf using sequences_induction with
  | nil => rfl
  | codePoint c rest valid ih =>
    rw [utf8DecodeBuf16] at ih ⊢
    rw [sequences_encode valid, List.flatMap_cons, List.filter_append, List.map_append, ih,
      List.filter_append, filter_utf8Encode valid]
    congr 1
    by_cases h : c < 0x80
    · have eq := toNat_ofNat16_of_lt (show c < 65536 by omega)
      simp only [wordsOf, if_neg (show ¬ c > 0xFFFF by omega), ↓reduceIte, List.filter_cons, eq, h,
        decide_true, List.filter_nil, List.map_cons, List.map_nil]
    · have none : (wordsOf c).filter (fun u => u.toNat < 0x80) = [] := by
        refine List.filter_eq_nil_iff.mpr fun u hu => ?_
        simp only [decide_eq_true_eq]
        unfold wordsOf at hu
        split_ifs at hu with wide
        · rw [getHiSurrogate_eq, getLoSurrogate_eq] at hu
          simp only [List.mem_cons, List.not_mem_nil, or_false] at hu
          rcases hu with rfl | rfl <;> rw [toNat_ofNat16_of_lt (by omega)] <;> omega
        · obtain rfl := List.mem_singleton.mp hu
          rw [toNat_ofNat16_of_lt (by omega)]
          exact h
      rw [none, if_neg h, List.map_nil]
  | error lead p notAscii hs ih =>
    rw [utf8DecodeBuf16] at ih ⊢
    rw [sequences_error hs, List.flatMap_cons, List.filter_append, List.map_append, ih,
      List.filter_cons_of_neg (by simp only [isAscii, decide_eq_true_eq]; omega)]
    rfl

theorem filter_viaString (buf : Bytes) :
    (viaString buf).filter isAscii = buf.filter isAscii := by
  rw [viaString, toCStringLen_eq, filter_codePoints, units_newStringLen, filter_decodeBuf16]

theorem mem_viaString {c : UInt8} (h : c.toNat < 0x80) {buf : Bytes} :
    c ∈ viaString buf ↔ c ∈ buf := by
  have ascii : isAscii c = true := by simpa [isAscii] using h
  have eq := filter_viaString buf
  constructor
  · intro m
    exact (List.mem_filter.mp (eq ▸ List.mem_filter.mpr ⟨m, ascii⟩)).1
  · intro m
    exact (List.mem_filter.mp (eq.symm ▸ List.mem_filter.mpr ⟨m, ascii⟩)).1

theorem mem_toCStringLen {c : UInt8} (h : c.toNat < 0x80) {s : Str} :
    c ∈ toCStringLen s ↔ UInt16.ofNat c.toNat ∈ s.units := by
  have ascii : isAscii c = true := by simpa [isAscii] using h
  have eq := filter_codePoints s.units
  rw [← toCStringLen_eq] at eq
  have unit : (UInt16.ofNat c.toNat).toNat = c.toNat := toNat_ofNat16_of_lt (by omega)
  constructor
  · intro m
    obtain ⟨u, hu, rfl⟩ := List.mem_map.mp (eq ▸ List.mem_filter.mpr ⟨m, ascii⟩)
    obtain ⟨mem, small⟩ := List.mem_filter.mp hu
    have low : u.toNat < 0x80 := by simpa using small
    rw [toNat_ofNat_of_lt (by omega), UInt16.ofNat_toNat]
    exact mem
  · intro m
    have kept : c ∈ (toCStringLen s).filter isAscii := by
      rw [eq]
      refine List.mem_map.mpr ⟨_, List.mem_filter.mpr ⟨m, by rw [unit]; simpa using h⟩, ?_⟩
      rw [unit, UInt8.ofNat_toNat]
    exact (List.mem_filter.mp kept).1

theorem toCStringLen_ascii_concat {t : Bytes} (low : ∀ c ∈ t, c.toNat < 0x80) (s : Str) :
    toCStringLen ((Str.narrow t).concat s) = t ++ toCStringLen s := by
  have units : ((Str.narrow t).concat s).units = t.map (fun c => UInt16.ofNat c.toNat) ++ s.units :=
    units_concat _ _
  rw [toCStringLen_eq, toCStringLen_eq, units]
  clear units
  induction t with
  | nil => rfl
  | cons c t ih =>
    have here := low c List.mem_cons_self
    have unit : (UInt16.ofNat c.toNat).toNat = c.toNat := toNat_ofNat16_of_lt (by omega)
    have one : utf8Encode c.toNat = [c] := by
      rw [utf8Encode_one here, UInt8.ofNat_toNat]
    rw [List.map_cons, List.cons_append, codePoints_ascii_cons (by omega), unit, List.flatMap_cons,
      one, ih fun d hd => low d (List.mem_cons_of_mem _ hd)]
    rfl


/-- An encoding error stands for `0xFFFD`. -/
theorem sequences_of_error {buf : Bytes} {s : Nat × Bool} (mem : s ∈ sequences buf)
    (error : s.2 = true) : s.1 = 0xFFFD := by
  induction buf using sequences_induction with
  | nil => cases mem
  | codePoint c rest valid ih =>
    rw [sequences_encode valid] at mem
    rcases List.mem_cons.mp mem with rfl | old
    · cases error
    · exact ih old
  | error lead p notAscii hs ih =>
    rw [sequences_error hs] at mem
    rcases List.mem_cons.mp mem with rfl | old
    · rfl
    · exact ih old

theorem wordsOf_large {c : Nat} (valid : c < 0x110000) (large : 0xFF < c) :
    ∃ u ∈ wordsOf c, 0xFF < u.toNat := by
  unfold wordsOf
  split_ifs with wide
  · refine ⟨_, List.mem_cons_self, ?_⟩
    rw [getHiSurrogate_eq, toNat_ofNat16_of_lt (by omega)]
    omega
  · refine ⟨_, List.mem_cons_self, ?_⟩
    rw [toNat_ofNat16_of_lt (by omega)]
    exact large

theorem sequences_valid {buf : Bytes} {s : Nat × Bool} (mem : s ∈ sequences buf) :
    s.1 < 0x110000 := by
  induction buf using sequences_induction with
  | nil => cases mem
  | codePoint c rest valid ih =>
    rw [sequences_encode valid] at mem
    rcases List.mem_cons.mp mem with rfl | old
    · exact valid
    · exact ih old
  | error lead p notAscii hs ih =>
    rw [sequences_error hs] at mem
    rcases List.mem_cons.mp mem with rfl | old
    · decide
    · exact ih old

/-- `JS_NewStringLen` makes a wide string of wide text only. -/
theorem wide_of_newStringLen {buf : Bytes} {chars : Units} (h : newStringLen buf = .wide chars) :
    ∃ u ∈ chars, 0xFF < u.toNat := by
  have units : chars = utf8DecodeBuf16 buf := by
    rw [← units_newStringLen, h]
    rfl
  by_contra none
  push Not at none
  have small : ∀ s ∈ sequences buf, s.1 ≤ 0xFF := by
    intro s mem
    by_contra large
    obtain ⟨u, word, wide⟩ := wordsOf_large (sequences_valid mem) (Nat.lt_of_not_le large)
    have bound := none u (units ▸ List.mem_flatMap.mpr ⟨s, mem, word⟩)
    omega
  have noWide : (sequences buf).any (fun s => s.1 > 0xFF) = false := by
    simpa using small
  have noPlane : (sequences buf).any (fun s => s.1 > 0xFFFF) = false := by
    simp only [List.any_eq_false, gt_iff_lt, decide_eq_true_eq, not_lt]
    exact fun s mem => (small s mem).trans (by decide)
  have noError : (sequences buf).any (fun s => s.2) = false := by
    simp only [List.any_eq_false]
    intro s mem error
    have value := sequences_of_error mem error
    have bound := small s mem
    omega
  unfold newStringLen at h
  by_cases empty : buf.length ≤ 0
  · rw [if_pos empty] at h
    cases h
  · rw [if_neg empty, utf8Scan] at h
    by_cases ascii : buf.all (fun b => b.toNat < 0x80) = true
    · rw [if_pos ascii] at h
      cases h
    · rw [if_neg ascii, noWide, noPlane, noError] at h
      cases h

theorem mem_latin1 {b : Bytes} {u : UInt16} (h : u ∈ latin1 b) : ∃ c ∈ b, u.toNat = c.toNat := by
  obtain ⟨c, mem, rfl⟩ := List.mem_map.mp h
  exact ⟨c, mem, toNat_ofNat16_of_lt (c.toNat_lt.trans (by decide))⟩

end Quickjs
