import Mathlib.Data.List.Nodup
import Goqjs.KeyedLists
import Goqjs.Shapes

/-!
# One shape

The hash table of a shape finds each of its properties and no deleted one. A shape and the values
of an object are together a list of properties under their names.
-/

namespace Shapes

open ChainedIndex

variable {V : Type} {ns ns' : List (Atom × Fin 64)} {values : List V} {atom : Atom}
  {flags : Fin 64} {i j k size : Nat} {prop : List ShapeProperty} {heads : List Nat} {sh : Shape}

/-- No name stands twice. -/
def Distinct (ns : List (Atom × Fin 64)) : Prop :=
  ns.Pairwise fun a b => a.1 = b.1 → a.1 = atomNull

/-- The properties by their names, without the deleted ones. -/
def fieldsOf (ns : List (Atom × Fin 64)) (values : List V) : List (Atom × (Fin 64 × V)) :=
  ((ns.zip values).filter fun e => e.1.1 ≠ atomNull).map fun e => (e.1.1, (e.1.2, e.2))

theorem Distinct.unique (D : Distinct ns) {x y : Atom × Fin 64} (at_i : ns[i]? = some x)
    (at_j : ns[j]? = some y) (same : x.1 = y.1) (live : x.1 ≠ atomNull) : i = j := by
  obtain ⟨lt_i, rfl⟩ := List.getElem?_eq_some_iff.mp at_i
  obtain ⟨lt_j, rfl⟩ := List.getElem?_eq_some_iff.mp at_j
  have pairwise := List.pairwise_iff_getElem.mp D
  rcases Nat.lt_trichotomy i j with lt | eq | gt
  · exact absurd (pairwise i j lt_i lt_j lt same) live
  · exact eq
  · exact absurd (pairwise j i lt_j lt_i gt same.symm) (same ▸ live)

theorem Distinct.append (D : Distinct ns) (fresh : ∀ x ∈ ns, x.1 ≠ atom) :
    Distinct (ns ++ [(atom, flags)]) := by
  refine List.pairwise_append.mpr ⟨D, List.pairwise_singleton _ _, ?_⟩
  intro x mem y mem' same
  rw [List.mem_singleton.mp mem'] at same
  exact absurd same (fresh x mem)

theorem Distinct.delete (D : Distinct ns) (i : Nat) :
    Distinct (ns.modify i fun _ => (atomNull, 0)) := by
  have pairwise := List.pairwise_iff_getElem.mp D
  apply List.pairwise_iff_getElem.mpr
  intro a b lt_a lt_b lt same
  rw [List.length_modify] at lt_a lt_b
  simp only [List.getElem_modify] at same ⊢
  split_ifs at same ⊢
  · rfl
  · rfl
  · exact same
  · exact pairwise a b lt_a lt_b lt same

theorem countP_delete (at_i : ns[i]? = some (atom, flags)) (live : atom ≠ atomNull) :
    (ns.modify i fun _ => (atomNull, 0)).countP (fun x => x.1 = atomNull) =
      ns.countP (fun x => x.1 = atomNull) + 1 := by
  obtain ⟨inside, eq⟩ := List.getElem?_eq_some_iff.mp at_i
  have old : ns = ns.take i ++ (atom, flags) :: ns.drop (i + 1) := by
    rw [← eq, List.getElem_cons_drop, List.take_append_drop]
  have new : ns.modify i (fun _ => (atomNull, 0)) =
      ns.take i ++ (atomNull, 0) :: ns.drop (i + 1) := by
    rw [← List.set_eq_modify, List.set_eq_take_append_cons_drop, if_pos inside]
  rw [new]
  conv_rhs => rw [old]
  simp only [List.countP_append, List.countP_cons, decide_true, if_true, live, decide_false,
    Bool.false_eq_true, if_false]
  omega

theorem mem_fieldsOf {f : Atom × (Fin 64 × V)} : f ∈ fieldsOf ns values ↔
    f.1 ≠ atomNull ∧ ∃ i : Nat, ns[i]? = some (f.1, f.2.1) ∧ values[i]? = some f.2.2 := by
  simp only [fieldsOf, List.mem_map, List.mem_filter, decide_eq_true_eq]
  constructor
  · rintro ⟨⟨x, v⟩, ⟨mem, live⟩, rfl⟩
    obtain ⟨i, at_i⟩ := List.mem_iff_getElem?.mp mem
    rw [List.getElem?_zip_eq_some] at at_i
    exact ⟨live, i, at_i⟩
  · rintro ⟨live, i, at_n, at_v⟩
    refine ⟨((f.1, f.2.1), f.2.2), ⟨?_, live⟩, rfl⟩
    apply List.mem_of_getElem? (i := i)
    exact List.getElem?_zip_eq_some.mpr ⟨at_n, at_v⟩

theorem keys_fieldsOf (length : values.length = ns.length) :
    (fieldsOf ns values).map Prod.fst = (ns.map Prod.fst).filter fun atom => atom ≠ atomNull := by
  have first : (ns.zip values).map Prod.fst = ns := List.map_fst_zip (by omega)
  conv_rhs => rw [← first]
  simp only [fieldsOf, List.map_map, List.filter_map]
  rfl

theorem Distinct.nodup_keys (D : Distinct ns) (length : values.length = ns.length) :
    ((fieldsOf ns values).map Prod.fst).Nodup := by
  rw [keys_fieldsOf length, List.Nodup, List.pairwise_filter, List.pairwise_map]
  apply D.imp
  intro a b h live _ same
  exact absurd (h same) (by simpa using live)

theorem find_fieldsOf (D : Distinct ns) (length : values.length = ns.length) {v : V}
    (at_i : ns[i]? = some (atom, flags)) (value : values[i]? = some v) (live : atom ≠ atomNull) :
    KeyedLists.find (fieldsOf ns values) atom = some (flags, v) :=
  KeyedLists.find_of_mem (D.nodup_keys length) (mem_fieldsOf.mpr ⟨live, i, at_i, value⟩)

theorem find_fieldsOf_none (length : values.length = ns.length) (absent : ∀ x ∈ ns, x.1 ≠ atom) :
    KeyedLists.find (fieldsOf ns values) atom = none := by
  rw [KeyedLists.find_eq_none_iff, keys_fieldsOf length]
  intro mem
  obtain ⟨x, memx, rfl⟩ := List.mem_map.mp (List.mem_filter.mp mem).1
  exact absent x memx rfl

theorem fieldsOf_append (length : values.length = ns.length) (live : atom ≠ atomNull) (v : V) :
    fieldsOf (ns ++ [(atom, flags)]) (values ++ [v]) =
      fieldsOf ns values ++ [(atom, (flags, v))] := by
  simp [fieldsOf, List.zip_append length.symm, live]

/-- A change at the only place with a property. -/
theorem modify_eq_map {α : Type} {l : List α} {q : α → Prop} [DecidablePred q] (g : α → α)
    (only : ∀ j x, l[j]? = some x → (q x ↔ j = i)) :
    l.modify i g = l.map fun x => if q x then g x else x := by
  apply List.ext_getElem?
  intro j
  rw [List.getElem?_modify, List.getElem?_map]
  cases at_j : l[j]? with
  | none => rfl
  | some x =>
    have here := only j x at_j
    by_cases same : j = i
    · simp [here.mpr same, same]
    · have other : ¬ q x := fun hq => same (here.mp hq)
      simp [other, Ne.symm same]

theorem zip_modify_left (g : Atom × Fin 64 → Atom × Fin 64) :
    (ns.modify i g).zip values = (ns.zip values).modify i fun e => (g e.1, e.2) := by
  apply List.ext_getElem?
  intro j
  simp only [List.zip, List.getElem?_zipWith, List.getElem?_modify]
  cases ns[j]? <;> cases values[j]? <;> split_ifs <;> rfl

theorem zip_set_right (v : V) :
    ns.zip (values.set i v) = (ns.zip values).modify i fun e => (e.1, v) := by
  apply List.ext_getElem?
  intro j
  rw [List.set_eq_modify]
  simp only [List.zip, List.getElem?_zipWith, List.getElem?_modify]
  cases ns[j]? <;> cases values[j]? <;> split_ifs <;> rfl

section OneProperty

variable {v : V} (D : Distinct ns) (length : values.length = ns.length)
  (at_i : ns[i]? = some (atom, flags)) (live : atom ≠ atomNull)

include D at_i live

theorem only_place {x : (Atom × Fin 64) × V} (at_j : (ns.zip values)[j]? = some x) :
    x.1.1 = atom ↔ j = i := by
  have at_j := (List.getElem?_zip_eq_some.mp at_j).1
  constructor
  · intro same
    exact D.unique at_j at_i same (same ▸ live)
  · rintro rfl
    rw [← Option.some.inj (at_i.symm.trans at_j)]

include length

/-- The property at `i` gets other flags or another value. -/
theorem fieldsOf_modify {g : (Atom × Fin 64) × V → (Atom × Fin 64) × V} {flags' : Fin 64}
    (value : values[i]? = some v) {v' : V} (change : g ((atom, flags), v) = ((atom, flags'), v')) :
    ((((ns.zip values).modify i g).filter fun e => e.1.1 ≠ atomNull).map
        fun e => (e.1.1, (e.1.2, e.2))) =
      KeyedLists.set (fieldsOf ns values) atom (flags', v') := by
  have here : ∀ e ∈ ns.zip values, e.1.1 = atom → g e = ((atom, flags'), v') := by
    intro e mem same
    obtain ⟨j, at_j⟩ := List.mem_iff_getElem?.mp mem
    obtain rfl := (only_place D at_i live at_j).mp same
    rw [List.getElem?_zip_eq_some, at_i, value] at at_j
    obtain ⟨first, second⟩ := at_j
    rw [← change]
    congr 1
    exact Prod.ext (Option.some.inj first).symm (Option.some.inj second).symm
  have there : atom ∈ (fieldsOf ns values).map Prod.fst := by
    rw [keys_fieldsOf length, List.mem_filter]
    exact ⟨List.mem_map.mpr ⟨_, List.mem_of_getElem? at_i, rfl⟩, by simpa using live⟩
  rw [modify_eq_map g fun j e at_j => only_place D at_i live at_j, KeyedLists.set_of_mem there,
    fieldsOf, List.filter_map, List.map_map, List.map_map]
  have same : (ns.zip values).filter ((fun e => decide (e.1.1 ≠ atomNull)) ∘
      fun e => if e.1.1 = atom then g e else e) =
        (ns.zip values).filter fun e => e.1.1 ≠ atomNull := by
    apply List.filter_congr
    intro e mem
    by_cases hit : e.1.1 = atom
    · simp [hit, here e mem hit]
    · simp [hit]
  rw [same]
  apply List.map_congr_left
  intro e mem
  by_cases hit : e.1.1 = atom
  · simp [hit, here e (List.mem_filter.mp mem).1 hit]
  · simp [hit]

theorem fieldsOf_set (value : values[i]? = some v) (v' : V) :
    fieldsOf ns (values.set i v') = KeyedLists.set (fieldsOf ns values) atom (flags, v') := by
  rw [fieldsOf, zip_set_right]
  exact fieldsOf_modify D length at_i live value rfl

theorem fieldsOf_flags (value : values[i]? = some v) (flags' : Fin 64) :
    fieldsOf (ns.modify i fun x => (x.1, flags')) values =
      KeyedLists.set (fieldsOf ns values) atom (flags', v) := by
  rw [fieldsOf, zip_modify_left]
  exact fieldsOf_modify D length at_i live value rfl

omit length in
theorem fieldsOf_delete : fieldsOf (ns.modify i fun _ => (atomNull, 0)) values =
    (fieldsOf ns values).filter fun f => f.1 ≠ atom := by
  rw [fieldsOf, zip_modify_left,
    modify_eq_map (fun e => ((atomNull, 0), e.2)) fun j e at_j => only_place D at_i live at_j,
    fieldsOf, List.filter_map, List.filter_map, List.filter_filter, List.map_map]
  have same : (ns.zip values).filter ((fun e => decide (e.1.1 ≠ atomNull)) ∘
      fun e => if e.1.1 = atom then ((atomNull, 0), e.2) else e) =
        (ns.zip values).filter fun e =>
          ((fun f : Atom × (Fin 64 × V) => decide (f.1 ≠ atom)) ∘
            fun e : (Atom × Fin 64) × V => (e.1.1, (e.1.2, e.2))) e && decide (e.1.1 ≠ atomNull) := by
    apply List.filter_congr
    intro e _
    by_cases hit : e.1.1 = atom <;> simp [hit]
  rw [same]
  apply List.map_congr_left
  intro e mem
  have other : e.1.1 ≠ atom := by
    have := (List.mem_filter.mp mem).2
    simp only [Function.comp, Bool.and_eq_true, decide_eq_true_eq] at this
    exact this.1
  simp [other]

end OneProperty

/-- The bucket of a property that is not deleted. -/
def slotIn (size : Nat) (pr : ShapeProperty) : Option Nat :=
  if pr.atom = atomNull then none else some (propBucket pr.atom size)

/-- The chains of a hash table lead to the properties. -/
abbrev Linked (heads : List Nat) (prop : List ShapeProperty) : Prop :=
  Indexed ShapeProperty.hashNext (slotIn heads.length) heads prop

/-- `i` is in the bucket of a name, behind `before`. -/
def Behind (sh : Shape) (atom : Atom) (i : Nat) (before : Option Nat) : Prop :=
  ∃ l l', members (slotIn sh.propHash.length) sh.prop (propBucket atom sh.propHash.length) =
    l ++ i :: l' ∧ before = l.getLast?

/-- A shape of at most `k` properties. -/
structure ShapeOk (k : Nat) (sh : Shape) : Prop where
  heads : 0 < sh.propHash.length
  linked : Linked sh.propHash sh.prop
  distinct : Distinct (names sh.prop)
  deleted : sh.deletedPropCount = (names sh.prop).countP fun x => x.1 = atomNull
  fits : sh.prop.length ≤ sh.propSize
  short : sh.prop.length ≤ k

@[simp] theorem length_names (prop : List ShapeProperty) : (names prop).length = prop.length :=
  List.length_map _

theorem names_getElem? (prop : List ShapeProperty) (i : Nat) :
    (names prop)[i]? = (prop[i]?).map fun pr => (pr.atom, pr.flags) :=
  List.getElem?_map

theorem propBucket_lt (positive : 0 < size) (atom : Atom) : propBucket atom size < size :=
  Nat.lt_of_le_of_lt Nat.and_le_right (by omega)

theorem slotIn_live {pr : ShapeProperty} (live : pr.atom ≠ atomNull) :
    slotIn size pr = some (propBucket pr.atom size) := if_neg live

theorem slotIn_null {pr : ShapeProperty} (null : pr.atom = atomNull) : slotIn size pr = none :=
  if_pos null

@[simp] theorem linkProperty_names (heads : List Nat) (prop : List ShapeProperty) (atom : Atom)
    (flags : Fin 64) :
    names (linkProperty heads prop atom flags).2 = names prop ++ [(atom, flags)] := by
  simp [linkProperty, names]

@[simp] theorem linkProperty_size (heads : List Nat) (prop : List ShapeProperty) (atom : Atom)
    (flags : Fin 64) : (linkProperty heads prop atom flags).1.length = heads.length :=
  List.length_set

theorem linkProperty_linked (I : Linked heads prop) (positive : 0 < heads.length)
    (live : atom ≠ atomNull) (short : prop.length < 2 ^ 26) (flags : Fin 64) :
    Linked (linkProperty heads prop atom flags).1 (linkProperty heads prop atom flags).2 := by
  have lt := propBucket_lt positive atom
  have head := (I _ lt).head_le
  rw [Linked, linkProperty_size]
  apply I.append (e := ⟨_, flags, atom⟩) (slotIn_live live)
  exact Nat.mod_eq_of_lt (by omega)

theorem relinkOne_names (t : List Nat × List ShapeProperty) (pr : ShapeProperty) :
    names (relinkOne t pr).2 = names t.2 ++ [(pr.atom, pr.flags)] := by
  rw [relinkOne]
  split_ifs
  · exact linkProperty_names t.1 t.2 pr.atom pr.flags
  · simp [names]

theorem relinkOne_linked {t : List Nat × List ShapeProperty} (I : Linked t.1 t.2)
    (positive : 0 < t.1.length) (short : t.2.length < 2 ^ 26) (pr : ShapeProperty) :
    Linked (relinkOne t pr).1 (relinkOne t pr).2 ∧ (relinkOne t pr).1.length = t.1.length := by
  rw [relinkOne]
  split_ifs with live
  · exact ⟨linkProperty_linked I positive live short pr.flags, linkProperty_size ..⟩
  · exact ⟨I.append_free (slotIn_null (not_not.mp live)), rfl⟩

/-- A new hash table has all properties, as they were. -/
theorem relink_spec (prop : List ShapeProperty) (positive : 0 < size)
    (short : prop.length ≤ 2 ^ 26) :
    Linked (relink size prop).1 (relink size prop).2 ∧ (relink size prop).1.length = size ∧
      names (relink size prop).2 = names prop := by
  have loop : ∀ (rest : List ShapeProperty) (t : List Nat × List ShapeProperty),
      Linked t.1 t.2 → t.1.length = size → t.2.length + rest.length ≤ 2 ^ 26 →
      Linked (rest.foldl relinkOne t).1 (rest.foldl relinkOne t).2 ∧
        (rest.foldl relinkOne t).1.length = size ∧
        names (rest.foldl relinkOne t).2 = names t.2 ++ names rest := by
    intro rest
    induction rest with
    | nil => exact fun t I length _ => ⟨I, length, by simp [names]⟩
    | cons pr rest ih =>
      intro t I length enough
      rw [List.length_cons] at enough
      have step := relinkOne_linked I (length ▸ positive) (by omega) pr
      have grown := relinkOne_names t pr
      have longer := congrArg List.length grown
      simp only [length_names, List.length_append, List.length_singleton] at longer
      have whole := ih (relinkOne t pr) step.1 (step.2.trans length) (by omega)
      refine ⟨whole.1, whole.2.1, ?_⟩
      rw [List.foldl_cons, whole.2.2, grown, List.append_assoc]
      rfl
  have start : Linked (List.replicate size 0) [] := by
    intro b lt
    rw [List.length_replicate] at lt
    simp [members, Chain, List.getD, lt]
  have whole := loop prop (List.replicate size 0, []) start List.length_replicate (by simpa using short)
  exact ⟨whole.1, whole.2.1, whole.2.2⟩

theorem growHash_pos (newSize : Nat) {hashSize : Nat} (positive : 0 < hashSize) :
    0 < growHash newSize hashSize := by
  fun_induction growHash newSize hashSize with
  | case1 hashSize more ih => exact ih (by omega)
  | case2 => exact positive

theorem shrinkHash_pos (newSize : Nat) {hashSize : Nat} (positive : 0 < hashSize) :
    0 < shrinkHash newSize hashSize := by
  fun_induction shrinkHash newSize hashSize with
  | case1 hashSize more ih => exact ih more.1
  | case2 => exact positive

/-- `resize_properties` makes room and changes no property. -/
theorem resizeProperties_spec (ok : ShapeOk k sh) (le : k ≤ 2 ^ 26) (count : Nat) :
    ShapeOk k (resizeProperties sh count) ∧ names (resizeProperties sh count).prop = names sh.prop ∧
      count ≤ (resizeProperties sh count).propSize := by
  have larger : sh.propSize ≤ max count (sh.propSize * 3 / 2) := by omega
  have room : count ≤ max count (sh.propSize * 3 / 2) := by omega
  simp only [resizeProperties]
  split_ifs with other
  · have short := ok.short
    obtain ⟨linked, size, same⟩ := relink_spec sh.prop
      (growHash_pos (max count (sh.propSize * 3 / 2)) ok.heads) (by omega)
    have length := congrArg List.length same
    simp only [length_names] at length
    refine ⟨⟨?_, linked, ?_, ?_, ?_, ?_⟩, same, room⟩
    · rw [size]
      exact growHash_pos _ ok.heads
    · rw [same]
      exact ok.distinct
    · rw [same]
      exact ok.deleted
    · rw [length]
      exact Nat.le_trans ok.fits larger
    · rw [length]
      exact ok.short
  · exact ⟨⟨ok.heads, ok.linked, ok.distinct, ok.deleted, Nat.le_trans ok.fits larger, ok.short⟩, rfl, room⟩

/-- What `add_shape_property` leaves alone, but for the hash of a shape in the table. -/
theorem addShapeProperty_header (sh : Shape) (atom : Atom) (flags : Fin 64) :
    (addShapeProperty sh atom flags).refCount = sh.refCount ∧
      (addShapeProperty sh atom flags).isHashed = sh.isHashed ∧
      (addShapeProperty sh atom flags).proto = sh.proto := by
  simp only [addShapeProperty, resizeProperties]
  split_ifs <;> exact ⟨rfl, rfl, rfl⟩

/-- `add_shape_property` adds a name that is not there. -/
theorem addShapeProperty_spec (ok : ShapeOk k sh) (lt : k < 2 ^ 26) (live : atom ≠ atomNull)
    (fresh : ∀ x ∈ names sh.prop, x.1 ≠ atom) (flags : Fin 64) :
    ShapeOk (k + 1) (addShapeProperty sh atom flags) ∧
      names (addShapeProperty sh atom flags).prop = names sh.prop ++ [(atom, flags)] := by
  have room : ∃ sh', addShapeProperty sh atom flags =
        { sh' with
          propHash := (linkProperty sh'.propHash sh'.prop atom flags).1
          prop := (linkProperty sh'.propHash sh'.prop atom flags).2 } ∧
      ShapeOk k sh' ∧ names sh'.prop = names sh.prop ∧ sh'.prop.length + 1 ≤ sh'.propSize := by
    by_cases full : sh.propSize ≤ sh.prop.length
    · have grown := resizeProperties_spec ok (by omega) (sh.prop.length + 1)
      have length := congrArg List.length grown.2.1
      simp only [length_names] at length
      refine ⟨resizeProperties sh (sh.prop.length + 1), ?_, grown.1, grown.2.1, ?_⟩
      · simp only [addShapeProperty, if_pos full]
      · rw [length]
        exact grown.2.2
    · exact ⟨sh, by simp only [addShapeProperty, if_neg full], ok, rfl, by omega⟩
  obtain ⟨sh', eq, ok', same, fits⟩ := room
  have short := ok'.short
  have grown := linkProperty_names sh'.propHash sh'.prop atom flags
  have length := congrArg List.length grown
  simp only [length_names, List.length_append, List.length_singleton] at length
  rw [eq]
  refine ⟨⟨?_, ?_, ?_, ?_, ?_, ?_⟩, grown.trans (by rw [same])⟩
  · simpa using ok'.heads
  · exact linkProperty_linked ok'.linked ok'.heads live (by omega) flags
  · simp only [grown]
    exact ok'.distinct.append (same ▸ fresh)
  · simp only [grown, List.countP_append, ok'.deleted]
    simp [live]
  · simpa only [length] using fits
  · simp only [length]
    omega

/-- The search finds a property that is there, with the one in front of it. -/
theorem findProperty_some (ok : ShapeOk k sh) (live : atom ≠ atomNull)
    (at_i : (names sh.prop)[i]? = some (atom, flags)) :
    ∃ before, findProperty sh atom = some (i, before) ∧ Behind sh atom i before := by
  have at_name := at_i
  rw [names_getElem?, Option.map_eq_some_iff] at at_i
  obtain ⟨pr, at_pr, same⟩ := at_i
  obtain ⟨rfl, rfl⟩ := Prod.mk.inj same
  have mem : i ∈ members (slotIn sh.propHash.length) sh.prop
      (propBucket pr.atom sh.propHash.length) := by
    rw [mem_members, slotAt, at_pr]
    exact slotIn_live live
  obtain ⟨l, l', split⟩ := List.append_of_mem mem
  have distinct := nodup_members (slotIn sh.propHash.length) sh.prop
    (propBucket pr.atom sh.propHash.length)
  have bound := length_members_le (slotIn sh.propHash.length) sh.prop
    (propBucket pr.atom sh.propHash.length)
  have chain := ok.linked _ (propBucket_lt ok.heads pr.atom)
  rw [split] at distinct bound chain
  have enough : l.length < sh.prop.length + 1 := by
    simp only [List.length_append, List.length_cons] at bound
    omega
  have fails : ∀ j ∈ l, ∀ e, sh.prop[j]? = some e → (e.atom == pr.atom) = false := by
    intro j memj e at_j
    have other : e.atom ≠ pr.atom := by
      intro same
      have at_j' : (names sh.prop)[j]? = some (e.atom, e.flags) := by
        rw [names_getElem?, at_j]
        rfl
      obtain rfl := ok.distinct.unique at_j' at_name same (same ▸ live)
      exact (List.nodup_append.mp distinct).2.2 j memj j List.mem_cons_self rfl
    simpa using other
  have found := walk_some none chain enough fails at_pr (by simp)
  rw [Option.or_none] at found
  exact ⟨l.getLast?, found, l, l', split, rfl⟩

theorem findProperty_none (ok : ShapeOk k sh) (absent : ∀ x ∈ names sh.prop, x.1 ≠ atom) :
    findProperty sh atom = none := by
  apply walk_none (ok.linked _ (propBucket_lt ok.heads atom))
  intro i _ e at_i
  have other := absent (e.atom, e.flags) (List.mem_map.mpr ⟨e, List.mem_of_getElem? at_i, rfl⟩)
  simpa using other

/-- A property with its value, as the search finds it. -/
structure FoundAt (sh : Shape) (values : List V) (atom : Atom) (i : Nat) (before : Option Nat)
    (pr : ShapeProperty) (v : V) : Prop where
  search : findProperty sh atom = some (i, before)
  behind : Behind sh atom i before
  prop : sh.prop[i]? = some pr
  name : pr.atom = atom
  value : values[i]? = some v

theorem FoundAt.at_name {before : Option Nat} {pr : ShapeProperty} {v : V}
    (F : FoundAt sh values atom i before pr v) : (names sh.prop)[i]? = some (atom, pr.flags) := by
  rw [names_getElem?, F.prop, ← F.name]
  rfl

/-- The search and the list of properties agree. -/
theorem findProperty_cases (ok : ShapeOk k sh) (live : atom ≠ atomNull)
    (length : values.length = sh.prop.length) :
    (∃ i before pr v, FoundAt sh values atom i before pr v ∧
      KeyedLists.find (fieldsOf (names sh.prop) values) atom = some (pr.flags, v)) ∨
    (findProperty sh atom = none ∧ (∀ x ∈ names sh.prop, x.1 ≠ atom) ∧
      KeyedLists.find (fieldsOf (names sh.prop) values) atom = none) := by
  have length' : values.length = (names sh.prop).length := by rw [length, length_names]
  by_cases there : ∃ x ∈ names sh.prop, x.1 = atom
  · obtain ⟨x, mem, rfl⟩ := there
    obtain ⟨i, at_i⟩ := List.mem_iff_getElem?.mp mem
    obtain ⟨before, search, behind⟩ := findProperty_some ok live at_i
    have at_name := at_i
    rw [names_getElem?, Option.map_eq_some_iff] at at_i
    obtain ⟨pr, at_pr, rfl⟩ := at_i
    have inside : i < values.length := length ▸ (List.getElem?_eq_some_iff.mp at_pr).1
    have value := List.getElem?_eq_getElem inside
    exact .inl ⟨i, before, pr, values[i], ⟨search, behind, at_pr, rfl, value⟩,
      find_fieldsOf ok.distinct length' at_name value live⟩
  · have absent : ∀ x ∈ names sh.prop, x.1 ≠ atom := fun x mem same => there ⟨x, mem, same⟩
    exact .inr ⟨findProperty_none ok absent, absent, find_fieldsOf_none length' absent⟩

/-- Other flags for one property. -/
theorem ShapeOk.reflag (ok : ShapeOk k sh) (i : Nat) (flags : Fin 64) :
    ShapeOk k { sh with prop := sh.prop.modify i fun pr => { pr with flags := flags } } ∧
      names (sh.prop.modify i fun pr => { pr with flags := flags }) =
        (names sh.prop).modify i fun x => (x.1, flags) := by
  have renamed : names (sh.prop.modify i fun pr => { pr with flags := flags }) =
      (names sh.prop).modify i fun x => (x.1, flags) := by
    apply List.ext_getElem?
    intro j
    simp only [names_getElem?, List.getElem?_modify]
    cases sh.prop[j]? <;> split_ifs <;> rfl
  have atoms : ((names sh.prop).modify i fun x => (x.1, flags)).map Prod.fst =
      (names sh.prop).map Prod.fst := by
    apply List.ext_getElem?
    intro j
    simp only [List.getElem?_map, List.getElem?_modify]
    cases (names sh.prop)[j]? <;> split_ifs <;> rfl
  refine ⟨⟨ok.heads, ?_, ?_, ?_, by simpa using ok.fits, by simpa using ok.short⟩, renamed⟩
  · intro b lt
    have slots : ∀ j, slotAt (slotIn sh.propHash.length)
        (sh.prop.modify i fun pr => { pr with flags := flags }) j =
          slotAt (slotIn sh.propHash.length) sh.prop j := by
      intro j
      simp only [slotAt, List.getElem?_modify]
      cases sh.prop[j]? <;> split_ifs <;> rfl
    rw [members_congr (List.length_modify ..) slots]
    apply (ok.linked b lt).agree
    intro j _
    simp only [List.getElem?_modify]
    cases sh.prop[j]? <;> split_ifs <;> rfl
  · have distinct := ok.distinct
    rw [Distinct, ← List.pairwise_map (f := Prod.fst) (R := fun a b => a = b → a = atomNull)]
      at distinct ⊢
    rwa [renamed, atoms]
  · have counted : ∀ ns : List (Atom × Fin 64), ns.countP (fun x => x.1 = atomNull) =
        (ns.map Prod.fst).countP fun atom => atom = atomNull := by
      intro ns
      rw [List.countP_map]
      rfl
    rw [ok.deleted, renamed, counted, counted, atoms]

theorem names_mark (prop : List ShapeProperty) (i : Nat) (pr : ShapeProperty) :
    names (prop.set i { pr with flags := 0, atom := atomNull }) =
      (names prop).modify i fun _ => (atomNull, 0) := by
  rw [names, List.map_set, List.set_eq_modify]
  rfl

theorem names_point (prop : List ShapeProperty) (j hashNext : Nat) :
    names (prop.modify j fun lpr => { lpr with hashNext := hashNext }) = names prop := by
  apply List.ext_getElem?
  intro j'
  simp only [names_getElem?, List.getElem?_modify]
  cases prop[j']? <;> split_ifs <;> rfl

theorem ShapeOk.mark (ok : ShapeOk k sh) (at_i : (names sh.prop)[i]? = some (atom, flags))
    (live : atom ≠ atomNull) (size : heads.length = sh.propHash.length) (linked : Linked heads prop)
    (marked : names prop = (names sh.prop).modify i fun _ => (atomNull, 0)) :
    ShapeOk k { sh with
      propHash := heads, prop := prop, deletedPropCount := sh.deletedPropCount + 1 } := by
  have length := congrArg List.length marked
  simp only [length_names, List.length_modify] at length
  refine ⟨size ▸ ok.heads, linked, ?_, ?_, length ▸ ok.fits, length ▸ ok.short⟩
  · simpa only [marked] using ok.distinct.delete i
  · simp only [marked, countP_delete at_i live, ok.deleted]

/-- A property leaves its bucket and is marked. -/
theorem unlinkProperty_spec (ok : ShapeOk k sh) (live : atom ≠ atomNull) {before : Option Nat}
    {pr : ShapeProperty} (behind : Behind sh atom i before) (at_i : sh.prop[i]? = some pr)
    (name : pr.atom = atom) :
    ShapeOk k (unlinkProperty sh atom i before pr) ∧
      names (unlinkProperty sh atom i before pr).prop =
        (names sh.prop).modify i fun _ => (atomNull, 0) := by
  obtain ⟨l, l', split, rfl⟩ := behind
  subst name
  have at_name : (names sh.prop)[i]? = some (pr.atom, pr.flags) := by
    rw [names_getElem?, at_i]
    rfl
  have inside := (List.getElem?_eq_some_iff.mp at_i).1
  rcases List.eq_nil_or_concat l with rfl | ⟨l, j, rfl⟩
  · -- the property is at the head
    have marked := names_mark sh.prop i pr
    refine ⟨ok.mark at_name live List.length_set ?_ marked, marked⟩
    rw [Linked, List.length_set]
    apply ok.linked.remove_first (List.length_set) _ _ split at_i
    · intro j ne
      rw [List.getElem?_set_ne ne.symm]
    · simp [slotAt, inside, slotIn]
    · intro j ne
      rw [slotAt, slotAt, List.getElem?_set_ne ne.symm]
  · -- the one in front now points past it
    have split' : members (slotIn sh.propHash.length) sh.prop
        (propBucket pr.atom sh.propHash.length) = l ++ j :: i :: l' := by
      rw [split, List.concat_eq_append, List.append_assoc, List.singleton_append]
    have distinct := nodup_members (slotIn sh.propHash.length) sh.prop
      (propBucket pr.atom sh.propHash.length)
    rw [split'] at distinct
    have apart : j ≠ i := by
      rintro rfl
      exact (List.nodup_cons.mp (List.nodup_append.mp distinct).2.1).1 List.mem_cons_self
    have memj : j ∈ members (slotIn sh.propHash.length) sh.prop
        (propBucket pr.atom sh.propHash.length) := by simp [split']
    have inside_j := (ok.linked _ (propBucket_lt ok.heads pr.atom)).lt j memj
    have marked := names_mark (sh.prop.modify j fun lpr => { lpr with hashNext := pr.hashNext }) i pr
    rw [names_point] at marked
    have last : (l.concat j).getLast? = some j := by
      rw [List.concat_eq_append, List.getLast?_concat]
    rw [last]
    refine ⟨ok.mark at_name live rfl ?_ marked, marked⟩
    apply ok.linked.remove_later (by simp) _ _ split' at_i
    · rw [List.getElem?_set_ne apart.symm, List.getElem?_modify_eq, List.getElem?_eq_getElem inside_j]
      rfl
    · intro j' ne_j ne_i
      rw [List.getElem?_set_ne ne_i.symm, List.getElem?_modify_ne _ _ ne_j.symm]
    · simp [slotAt, inside, slotIn]
    · intro j' ne
      rw [slotAt, slotAt, List.getElem?_set_ne ne.symm, List.getElem?_modify]
      cases sh.prop[j']? <;> split_ifs <;> rfl

theorem names_filter (prop : List ShapeProperty) :
    names (prop.filter fun pr => pr.atom ≠ atomNull) =
      (names prop).filter fun x => x.1 ≠ atomNull := by
  rw [names, names, List.filter_map]
  rfl

theorem length_filter_live (ns : List (Atom × Fin 64)) :
    (ns.filter fun x => x.1 ≠ atomNull).length =
      ns.length - ns.countP fun x => x.1 = atomNull := by
  have parts := List.length_eq_countP_add_countP (fun x : Atom × Fin 64 => x.1 = atomNull) (l := ns)
  rw [← List.countP_eq_length_filter, parts, Nat.add_sub_cancel_left]
  simp only [decide_eq_true_eq, decide_not]

/-- What is left of the names and of the values are the properties that were not deleted. -/
theorem fieldsOf_live (length : values.length = prop.length) :
    (liveValues prop values).length = (names (prop.filter fun pr => pr.atom ≠ atomNull)).length ∧
      fieldsOf (names (prop.filter fun pr => pr.atom ≠ atomNull)) (liveValues prop values) =
        fieldsOf (names prop) values := by
  have first : (prop.zip values).map Prod.fst = prop := List.map_fst_zip (by omega)
  have kept : prop.filter (fun pr => pr.atom ≠ atomNull) =
      ((prop.zip values).filter fun e => e.1.atom ≠ atomNull).map Prod.fst := by
    conv_lhs => rw [← first]
    rw [List.filter_map]
    rfl
  have zipped : (names prop).zip values =
      (prop.zip values).map fun e => ((e.1.atom, e.1.flags), e.2) := by
    rw [names, List.zip_map_left]
    rfl
  have again : (names (prop.filter fun pr => pr.atom ≠ atomNull)).zip (liveValues prop values) =
      ((prop.zip values).filter fun e => e.1.atom ≠ atomNull).map
        fun e => ((e.1.atom, e.1.flags), e.2) := by
    rw [names, List.zip_map_left, kept, liveValues, ← List.unzip_fst, ← List.unzip_snd,
      List.zip_unzip]
    rfl
  constructor
  · rw [length_names, kept, liveValues, List.length_map, List.length_map]
  · rw [fieldsOf, fieldsOf, again, zipped, List.filter_map, List.filter_map, List.filter_filter]
    congr 2
    apply List.filter_congr
    intro e _
    simp

/-- The properties that are not deleted move to the front, with their values. -/
theorem compactProperties_spec (ok : ShapeOk k sh) (le : k ≤ 2 ^ 26) (own : sh.isHashed = false)
    (many : 8 ≤ sh.deletedPropCount) (length : values.length = sh.prop.length) :
    ∃ sh', compactProperties sh values = some (sh', liveValues sh.prop values) ∧ ShapeOk k sh' ∧
      (sh'.refCount = sh.refCount ∧ sh'.isHashed = false ∧ sh'.proto = sh.proto) ∧
      (liveValues sh.prop values).length = sh'.prop.length ∧
      fieldsOf (names sh'.prop) (liveValues sh.prop values) = fieldsOf (names sh.prop) values := by
  have kept := names_filter sh.prop
  have live := length_filter_live (names sh.prop)
  rw [length_names, ← ok.deleted] at live
  have few := List.countP_le_length (p := fun x => decide (x.1 = atomNull)) (l := names sh.prop)
  rw [← ok.deleted, length_names] at few
  have fits := ok.fits
  have short := ok.short
  have length_kept := congrArg List.length kept
  rw [length_names, live] at length_kept
  obtain ⟨linked, size, same⟩ := relink_spec (sh.prop.filter fun pr => pr.atom ≠ atomNull)
    (shrinkHash_pos (max 2 (sh.prop.length - sh.deletedPropCount)) ok.heads) (by omega)
  have length_new := congrArg List.length same
  rw [length_names, length_names, length_kept] at length_new
  have values_left := fieldsOf_live length
  have made : compactProperties sh values = some
      ({ sh with
        propHash := (relink (shrinkHash (max 2 (sh.prop.length - sh.deletedPropCount))
          sh.propHash.length) (sh.prop.filter fun pr => pr.atom ≠ atomNull)).1
        prop := (relink (shrinkHash (max 2 (sh.prop.length - sh.deletedPropCount))
          sh.propHash.length) (sh.prop.filter fun pr => pr.atom ≠ atomNull)).2
        propSize := max 2 (sh.prop.length - sh.deletedPropCount)
        deletedPropCount := 0 }, liveValues sh.prop values) := by
    rw [compactProperties, own, if_neg Bool.false_ne_true, if_neg (by omega),
      if_neg (not_not.mpr length_new)]
  refine ⟨_, made, ⟨?_, linked, ?_, ?_, ?_, ?_⟩, ⟨rfl, own, rfl⟩, ?_, ?_⟩
  · rw [size]
    exact shrinkHash_pos _ ok.heads
  · simp only [same, kept]
    exact ok.distinct.filter _
  · simp only [same, kept]
    rw [List.countP_filter]
    simp
  · simp only [length_new]
    omega
  · simp only [length_new]
    omega
  · rw [values_left.1, length_names, length_kept, length_new]
  · rw [same]
    exact values_left.2

end Shapes
