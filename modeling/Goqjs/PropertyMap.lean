import Goqjs.PropertyNames

/-!
# Set, Get and Keys as a map over names

`Set` of one name is seen by `Get` of that name and by no other, and in `Keys`, and every
name of `Keys` reads its own property: for which objects, names and tables of atoms.
-/

namespace Objects

open Quickjs Qjs KeyedLists

variable {T : Atoms}

/-- Reading the second name finds the property of the first: the second is the first up to a NUL, or
its bytes are taken for the 8-bit characters of the first. -/
def Clashes (T : Atoms) (k1 k2 : GoString) : Prop :=
  Engine.cString k2 = k1 ∨
    (Engine.cString k2).head?.all (fun c => !isDigit c) = true ∧
      latin1 (Engine.cString k2) = textOf k1 ∧ Str.wide (textOf k1) ∉ T.strs

theorem mem_newAtom {name : GoString} {s : Str} (h : s ∈ (T.newAtom name).2.strs) :
    s ∈ T.strs ∨ s = newStringLen (Engine.cString name) := by
  rw [Atoms.newAtom] at h
  rcases T.newAtomLen_table (Engine.cString name) with same | same
  · rw [same] at h
    exact .inl h
  · rw [same] at h
    exact Atoms.mem_intern h

theorem mem_newAtom_of_mem (name : GoString) {s : Str} (h : s ∈ T.strs) :
    s ∈ (T.newAtom name).2.strs := by
  rw [Atoms.newAtom]
  rcases T.newAtomLen_table (Engine.cString name) with same | same
  · rw [same]
    exact h
  · rw [same]
    exact Atoms.mem_intern_of_mem h _

theorem Atoms.eq_of_units {s t : Str} (hs : s ∈ T.strs) (ht : t ∈ T.strs)
    (same : s.units = t.units) : s = t :=
  List.inj_on_of_nodup_map T.distinct hs ht same

/-- A tagged integer starts with a digit. -/
theorem digit_of_tagged {b : Bytes} (tagged : isTaggedInt (latin1 b) = true) :
    b.head?.all (fun c => !isDigit c) = false := by
  cases b with
  | nil => cases tagged
  | cons c b =>
    have range := isTaggedInt_digits tagged (UInt16.ofNat c.toNat) List.mem_cons_self
    rw [toNat_ofNat16_of_lt (c.toNat_lt.trans (by decide))] at range
    simpa [isDigit] using range

/-- Bytes that spell a name in 8-bit characters are taken for its atom, unless that one is old and
has 16-bit characters. -/
theorem taken_of_spelled {k b : GoString} (wf : WellFormed k) (plain : T.Plain k)
    (first : b.head?.all (fun c => !isDigit c) = true) (spelled : latin1 b = textOf k)
    (narrow : Str.wide (textOf k) ∉ T.strs) : (T.newAtom k).2.Taken b := by
  have known := T.has_newAtomLen (Engine.cString k)
  have atom : (T.newAtomLen (Engine.cString k)).1 = textOf k :=
    (newAtom_eq_textOf_iff wf).mpr plain
  rw [atom] at known
  refine ⟨first, ?_⟩
  rcases known with tagged | old
  · rw [← spelled] at tagged
    rw [digit_of_tagged tagged] at first
    cases first
  · obtain ⟨s, mem, units⟩ := List.mem_map.mp old
    cases s with
    | narrow chars =>
      have bytes : chars = b := latin1_injective (units.trans spelled.symm)
      rw [← bytes]
      exact mem
    | wide chars =>
      change chars = textOf k at units
      subst units
      rcases mem_newAtom mem with old | new
      · exact absurd old narrow
      · -- a new string is 16-bit only for a character above 0xFF
        obtain ⟨u, mem', large⟩ := wide_of_newStringLen new.symm
        rw [← spelled] at mem'
        obtain ⟨c, _, value⟩ := mem_latin1 mem'
        have range := c.toNat_lt
        omega

/-- In the table that `Set` leaves, the second name stands for the first exactly in a clash. -/
theorem newAtom_eq_iff_clashes {k1 k2 : GoString} (wf1 : WellFormed k1) (wf2 : WellFormed k2)
    (plain : T.Plain k1) :
    ((T.newAtom k1).2.newAtom k2).1 = textOf k1 ↔ Clashes T k1 k2 := by
  have whole := cString_eq_iff.mpr plain.noNul
  constructor
  · intro same
    by_cases taken : (T.newAtom k1).2.Taken (Engine.cString k2)
    · rw [newAtom_of_taken taken] at same
      refine .inr ⟨taken.1, same, fun wide => ?_⟩
      have twice := (T.newAtom k1).2.eq_of_units taken.2 (mem_newAtom_of_mem k1 wide) same
      cases twice
    · rw [newAtom_of_not_taken taken] at same
      exact .inl (eq_of_textOf (wellFormed_cString wf2) wf1 same)
  · rintro (same | ⟨first, spelled, narrow⟩)
    · by_cases taken : (T.newAtom k1).2.Taken (Engine.cString k2)
      · rw [newAtom_of_taken taken, same]
        rw [same] at taken
        rcases mem_newAtom taken.2 with old | new
        · exact (textOf_ascii (plain.ascii ⟨taken.1, old⟩)).symm
        · rw [whole] at new
          exact congrArg Str.units new
      · rw [newAtom_of_not_taken taken, same]
    · rw [newAtom_of_taken (taken_of_spelled wf1 plain first spelled narrow), spelled]

variable {O A : Type} (acc : Accessors O A) (s : State O A)

/-- What `Set` of one name does to it, to another one and to the names. -/
structure SetLaws (k1 k2 : GoString) (v : Value O) : Prop where
  self : (get acc (set acc s k1 v) k1).1 = v
  other : (get acc (set acc s k1 v) k2).1 = (get acc s k2).1
  listed : k1 ∈ keys (set acc s k1 v)

/-- Every name that `Keys` hands out reads the own property that it came from. -/
def KeysRead : Prop :=
  ∀ a ∈ s.object.ownPropertyNames, (s.atoms.newAtom (s.key a)).1 = a ∧
    ∃ prop, s.object.find (.string a) = some prop ∧ get acc s (s.key a) = prop.slot.read acc s

def PropertyMap (k1 k2 : GoString) : Prop := (∀ v, SetLaws acc s k1 k2 v) ∧ KeysRead acc s

/-- The first name can be assigned and is not hidden, the second does not stand for it, and no name
is lost on its way. -/
structure Separate (k1 k2 : GoString) : Prop where
  plain : s.atoms.Plain k1
  assignable : s.Assignable (textOf k1)
  shown : ∀ prop, s.object.find (.string (textOf k1)) = some prop → prop.enumerable = true
  apart : ¬ Clashes s.atoms k1 k2
  keys : ∀ a ∈ s.object.ownPropertyNames, s.atoms.Plain (s.key a)

variable {acc s}

theorem known_of_mem {a : Units} (mem : a ∈ s.object.ownPropertyNames) : s.atoms.Has a := by
  obtain ⟨prop, found, _⟩ := Object.mem_ownPropertyNames.mp mem
  exact s.named a (List.mem_map.mpr ⟨_, mem_of_find found, rfl⟩)

theorem keysRead_iff :
    KeysRead acc s ↔ ∀ a ∈ s.object.ownPropertyNames, s.atoms.Plain (s.key a) := by
  constructor
  · intro h a mem
    apply (newAtom_eq_textOf_iff (wellFormed_key s a)).mp
    rw [(h a mem).1, textOf_key (known_of_mem mem)]
  · intro h a mem
    have same := (newAtom_eq_textOf_iff (wellFormed_key s a)).mpr (h a mem)
    rw [textOf_key (known_of_mem mem)] at same
    obtain ⟨prop, found, _⟩ := Object.mem_ownPropertyNames.mp mem
    refine ⟨same, prop, found, ?_⟩
    rw [get, same, getProperty_of_find found]

theorem mem_keys {name : GoString} (wf : WellFormed name) :
    name ∈ keys s ↔ textOf name ∈ s.object.ownPropertyNames := by
  constructor
  · intro mem
    obtain ⟨a, own, same⟩ := List.mem_map.mp mem
    rwa [← (key_eq_iff (known_of_mem own) wf).mp same]
  · intro own
    exact List.mem_map.mpr ⟨_, own, (key_eq_iff (known_of_mem own) wf).mpr rfl⟩

section Set

variable {k1 k2 : GoString} {v : Value O}

/-- The names of the object after an assignment. -/
theorem mem_ownPropertyNames_assigned {a b : Units} (known : s.atoms.Has a) :
    b ∈ (s.assigned a known v).object.ownPropertyNames ↔
      if b = a then ∀ prop, s.object.find (.string a) = some prop → prop.enumerable = true
      else b ∈ s.object.ownPropertyNames := by
  simp only [Object.mem_ownPropertyNames]
  split_ifs with same
  · subst same
    rw [find_assigned known]
    cases s.object.find (.string b) <;> simp
  · rw [find_assigned_ne known (by simpa using same)]

/-- Away from the assigned name, the new table changes no atom. -/
theorem newAtom_newAtom {T : Atoms} (plain : T.Plain k1)
    (other : ((T.newAtom k1).2.newAtom k2).1 ≠ textOf k1) :
    ((T.newAtom k1).2.newAtom k2).1 = (T.newAtom k2).1 := by
  by_cases taken : (T.newAtom k1).2.Taken (Engine.cString k2)
  · have atom := newAtom_of_taken taken
    rcases mem_newAtom taken.2 with old | new
    · rw [atom, newAtom_of_taken ⟨taken.1, old⟩]
    · rw [cString_eq_iff.mpr plain.noNul] at new
      exact absurd (atom.trans (congrArg Str.units new)) other
  · have before : ¬ T.Taken (Engine.cString k2) := by
      intro old
      exact taken ⟨old.1, mem_newAtom_of_mem k1 old.2⟩
    rw [newAtom_of_not_taken taken, newAtom_of_not_taken before]

theorem get_set_of_eq (assignable : s.Assignable (s.atoms.newAtom k1).1)
    (same : ((s.atoms.newAtom k1).2.newAtom k2).1 = (s.atoms.newAtom k1).1) :
    (get acc (set acc s k1 v) k2).1 = v := by
  rw [set_of_assignable k1 assignable]
  change (getProperty acc _ (.string ((s.atoms.newAtom k1).2.newAtom k2).1)).1 = v
  rw [same]
  exact getProperty_assigned _

theorem get_set_of_ne (assignable : s.Assignable (s.atoms.newAtom k1).1)
    (plain : s.NoAccessor (s.atoms.newAtom k2).1)
    (kept : ((s.atoms.newAtom k1).2.newAtom k2).1 = (s.atoms.newAtom k2).1)
    (ne : (s.atoms.newAtom k2).1 ≠ (s.atoms.newAtom k1).1) :
    (get acc (set acc s k1 v) k2).1 = (get acc s k2).1 := by
  rw [set_of_assignable k1 assignable]
  change (getProperty acc _ (.string ((s.atoms.newAtom k1).2.newAtom k2).1)).1 = _
  rw [kept]
  exact getProperty_congr plain (findProperty_assigned_ne (s := s.using k1) _ ne)

end Set

theorem exists_ne (w : Value O) : ∃ v : Value O, v ≠ w := by
  by_cases same : w = .undefined
  · subst same
    exact ⟨.null, nofun⟩
  · exact ⟨.undefined, fun h => same h.symm⟩

section Laws

variable {k1 k2 : GoString}

theorem Separate.setLaws (h : Separate s k1 k2) (wf1 : WellFormed k1) (wf2 : WellFormed k2)
    (plain : s.NoAccessor (s.atoms.newAtom k2).1) (v : Value O) : SetLaws acc s k1 k2 v := by
  have atom := (newAtom_eq_textOf_iff wf1).mpr h.plain
  have assignable : s.Assignable (s.atoms.newAtom k1).1 := atom.symm ▸ h.assignable
  have apart : ((s.atoms.newAtom k1).2.newAtom k2).1 ≠ textOf k1 := fun same =>
    h.apart ((newAtom_eq_iff_clashes wf1 wf2 h.plain).mp same)
  have kept := newAtom_newAtom h.plain apart
  constructor
  · apply get_set_of_eq assignable
    rw [atom]
    exact (newAtom_eq_iff_clashes wf1 wf1 h.plain).mpr (.inl (cString_eq_iff.mpr h.plain.noNul))
  · exact get_set_of_ne assignable plain kept (kept ▸ atom.symm ▸ apart)
  · rw [set_of_assignable k1 assignable, mem_keys wf1, mem_ownPropertyNames_assigned]
    rw [if_pos atom.symm, atom]
    exact h.shown

theorem PropertyMap.separate (h : PropertyMap acc s k1 k2) (wf1 : WellFormed k1)
    (wf2 : WellFormed k2) (plain : s.NoAccessor (s.atoms.newAtom k1).1) : Separate s k1 k2 := by
  obtain ⟨laws, read⟩ := h
  have keys := keysRead_iff.mp read
  have assignable : s.Assignable (s.atoms.newAtom k1).1 := by
    by_contra refused
    obtain ⟨v, ne⟩ := exists_ne (get acc s k1).1
    have self := (laws v).self
    rw [set_of_refused k1 plain refused] at self
    exact ne self.symm
  have listed := (laws .undefined).listed
  rw [set_of_assignable k1 assignable, mem_keys wf1, mem_ownPropertyNames_assigned] at listed
  have name : s.atoms.Plain k1 := by
    by_cases same : textOf k1 = (s.atoms.newAtom k1).1
    · exact (newAtom_eq_textOf_iff wf1).mp same.symm
    · rw [if_neg same] at listed
      have mem : textOf k1 ∈ s.object.ownPropertyNames := listed
      have own := keys _ mem
      rwa [(key_eq_iff (known_of_mem mem) wf1).mpr rfl] at own
  have atom := (newAtom_eq_textOf_iff wf1).mpr name
  refine ⟨name, atom ▸ assignable, ?_, fun clash => ?_, keys⟩
  · rwa [if_pos atom.symm, atom] at listed
  · have same := (newAtom_eq_iff_clashes wf1 wf2 name).mpr clash
    obtain ⟨v, ne⟩ := exists_ne (get acc s k2).1
    have other := (laws v).other
    rw [get_set_of_eq assignable (same.trans atom.symm)] at other
    exact ne other

end Laws

/-- An empty object with no prototype, and the atoms of some strings. -/
def plainState (T : Atoms) : State Unit Empty := ⟨T, .empty (), [], nofun⟩

def noAccessors : Accessors Unit Empty := ⟨fun a => a.elim, fun a => a.elim⟩

theorem noAccessor_plainState (T : Atoms) (a : Units) : (plainState T).NoAccessor a := nofun

def noAtoms : Atoms := ⟨[], List.nodup_nil⟩

/-- An object with the property `a`, and a prototype with the property `b`. -/
def derivedState : State Unit Empty where
  atoms := ⟨[.narrow (ascii "a"), .narrow (ascii "b")], by decide⟩
  object := (Object.empty ()).put (.string (textOf (ascii "a"))) ⟨.data .null true, true⟩
  protos := [(Object.empty ()).put (.string (textOf (ascii "b"))) ⟨.data (.bool true) true, true⟩]
  named := by
    intro a mem
    obtain rfl : a = textOf (ascii "a") := Key.string.inj (List.mem_singleton.mp mem)
    exact .inr (by decide)

theorem noAccessor_derivedState (a : Units) : derivedState.NoAccessor a := by
  intro prop _
  cases prop.slot with
  | data v writable => exact ⟨v, writable, rfl⟩
  | accessor a => exact a.elim

/-- The bytes of the second name are the characters of the first. -/
example : (get noAccessors (set noAccessors (plainState noAtoms) [0xC3, 0x83, 0xC2, 0xA9] .null)
    [0xC3, 0xA9]).1 = .null := rfl

end Objects
