import Goqjs.EngineObjects
import Goqjs.EngineText

/-!
# Names on their way into the engine

`Keys` hands a name out with its length, `Get` and `Set` take it as a C string. A name
keeps its identity exactly if it has no NUL and its bytes are not taken for another
name, one of 8-bit characters.
-/

namespace Objects

open Quickjs Qjs KeyedLists

/-- The UTF-16 of a Go string. -/
def textOf (name : GoString) : Units := (newStringLen name).units

theorem eq_of_textOf {k k' : GoString} (h : WellFormed k) (h' : WellFormed k')
    (same : textOf k = textOf k') : k = k' := by
  have written := toCStringLen_congr same
  rwa [(toCStringLen_newStringLen_iff k).mpr h, (toCStringLen_newStringLen_iff k').mpr h'] at written

/-- UTF-8 as Go has it is well formed. -/
theorem wellFormed_utf8 (text : List Char) : WellFormed (text.flatMap String.utf8EncodeChar) := by
  rw [← toCStringLen_of_utf16 (s := .wide (utf16 text)) rfl]
  exact wellFormed_toCStringLen _

theorem wellFormed_append_left {a b : Bytes} {c : UInt8} (ascii : c.toNat < 0x80)
    (h : WellFormed (a ++ c :: b)) : WellFormed a := by
  obtain ⟨clean, apart⟩ := h
  rw [sequences_append_ascii a ascii b] at clean apart
  rw [List.map_append] at apart
  exact ⟨fun s mem => clean s (List.mem_append_left _ mem), apart.left_of_append⟩

theorem notMem_cString (name : GoString) : (0 : UInt8) ∉ Engine.cString name := by
  intro mem
  have nonzero := List.mem_takeWhile_imp mem
  simp at nonzero

theorem cString_eq_iff {name : GoString} : Engine.cString name = name ↔ (0 : UInt8) ∉ name := by
  constructor
  · intro same nul
    exact notMem_cString name (same.symm ▸ nul)
  · intro none
    by_contra cut
    exact none (Engine.nul_of_cString cut)

theorem wellFormed_cString {name : GoString} (h : WellFormed name) :
    WellFormed (Engine.cString name) := by
  by_cases nul : (0 : UInt8) ∈ name
  · obtain ⟨before, after, rfl, first⟩ := List.eq_append_cons_of_mem nul
    have cut : Engine.cString (before ++ 0 :: after) = before := by
      rw [Engine.cString, List.takeWhile_append_of_pos]
      · simp
      · intro c mem
        simp only [bne_iff_ne, ne_eq]
        rintro rfl
        exact first mem
    rw [cut]
    exact wellFormed_append_left (by decide) h
  · rwa [cString_eq_iff.mpr nul]

variable {T : Atoms}

/-- The name has no NUL, and it is ASCII where its bytes are taken for an 8-bit name. -/
structure Atoms.Plain (T : Atoms) (name : GoString) : Prop where
  noNul : (0 : UInt8) ∉ name
  ascii : T.Taken name → ∀ c ∈ name, c.toNat < 0x80

theorem newAtom_of_taken {name : GoString} (h : T.Taken (Engine.cString name)) :
    (T.newAtom name).1 = latin1 (Engine.cString name) := by
  rw [Atoms.newAtom, Atoms.newAtomLen_of_taken h]

theorem newAtom_of_not_taken {name : GoString} (h : ¬ T.Taken (Engine.cString name)) :
    (T.newAtom name).1 = textOf (Engine.cString name) := by
  rw [Atoms.newAtom, Atoms.newAtomLen_of_not_taken h]
  rfl

theorem textOf_ascii {name : GoString} (ascii : ∀ c ∈ name, c.toNat < 0x80) :
    textOf name = latin1 name :=
  units_newStringLen_ascii ascii

theorem ascii_of_textOf {name : GoString} (same : textOf name = latin1 name) :
    ∀ c ∈ name, c.toNat < 0x80 := by
  rw [textOf, units_newStringLen] at same
  exact (decodeBuf16_latin1_iff name).mp same

/-- The bytes of a name that spell another name in 8-bit characters have no NUL. -/
theorem notMem_of_textOf {name b : GoString} (wf : WellFormed name) (none : (0 : UInt8) ∉ b)
    (same : textOf name = latin1 b) : (0 : UInt8) ∉ name := by
  intro nul
  have back := (toCStringLen_newStringLen_iff name).mpr wf
  rw [← back, mem_toCStringLen (by decide)] at nul
  have unit : (0 : UInt16) ∈ latin1 b := same ▸ nul
  obtain ⟨c, mem, zero⟩ := List.mem_map.mp unit
  have value := congrArg UInt16.toNat zero
  rw [toNat_ofNat16_of_lt (c.toNat_lt.trans (by decide))] at value
  have first : c = 0 := UInt8.toNat_inj.mp value
  exact none (first ▸ mem)

/-- The atom of a name has the text of the name exactly if the name is a plain one. -/
theorem newAtom_eq_textOf_iff {name : GoString} (wf : WellFormed name) :
    (T.newAtom name).1 = textOf name ↔ T.Plain name := by
  constructor
  · intro same
    by_cases taken : T.Taken (Engine.cString name)
    · rw [newAtom_of_taken taken] at same
      have none := notMem_of_textOf wf (notMem_cString name) same.symm
      rw [cString_eq_iff.mpr none] at same
      exact ⟨none, fun _ => ascii_of_textOf same.symm⟩
    · rw [newAtom_of_not_taken taken] at same
      have whole := eq_of_textOf (wellFormed_cString wf) wf same
      exact ⟨cString_eq_iff.mp whole, fun now => absurd (whole.symm ▸ now) taken⟩
  · rintro ⟨none, ascii⟩
    have whole := cString_eq_iff.mpr none
    by_cases taken : T.Taken (Engine.cString name)
    · rw [newAtom_of_taken taken, whole, textOf_ascii (ascii (whole ▸ taken))]
    · rw [newAtom_of_not_taken taken, whole]

theorem wellFormed_ascii {name : GoString} (ascii : ∀ c ∈ name, c.toNat < 0x80) :
    WellFormed name :=
  (toCStringLen_newStringLen_iff name).mp ((toCStringLen_latin1_iff (textOf_ascii ascii)).mpr ascii)

/-- No atom is in the way of an ASCII name. -/
theorem newAtom_ascii {name : GoString} (none : (0 : UInt8) ∉ name)
    (ascii : ∀ c ∈ name, c.toNat < 0x80) : (T.newAtom name).1 = latin1 name := by
  have same := (newAtom_eq_textOf_iff (T := T) (wellFormed_ascii ascii)).mpr ⟨none, fun _ => ascii⟩
  rw [same, textOf_ascii ascii]

variable {O A : Type} {s : State O A}

theorem textOf_key {a : Units} (known : s.atoms.Has a) : textOf (s.key a) = a := by
  rw [textOf, State.key, units_newStringLen_toCStringLen, Atoms.units_atomToString known]

theorem wellFormed_key (s : State O A) (a : Units) : WellFormed (s.key a) :=
  wellFormed_toCStringLen _

theorem key_eq_iff {a : Units} (known : s.atoms.Has a) {name : GoString} (wf : WellFormed name) :
    s.key a = name ↔ a = textOf name := by
  constructor
  · rintro rfl
    exact (textOf_key known).symm
  · rintro rfl
    exact eq_of_textOf (wellFormed_key s _) wf (textOf_key known)

end Objects
