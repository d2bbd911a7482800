import Goqjs.ShapeObjects

/-!
# Objects change

A property is written, added or deleted, gets other flags, or the object gets another prototype.
Each call changes the properties of its own object as if no shape were shared.
-/

namespace Shapes

open KeyedLists

variable {V : Type} {k k' s o : Nat} {held : List Nat} {rt rt' rt₁ : Runtime V} {sh sh' : Shape}
  {p : JSObject V} {values : List V} {atom : Atom} {flags : Fin 64} {v : V}

/-- A property is written; a new one can be changed in every way. -/
def Dict.set (d : Dict V) (atom : Atom) (v : V) : Dict V :=
  { d with fields := KeyedLists.set d.fields atom (((find d.fields atom).map Prod.fst).getD propCWE, v) }

/-- A property that is there gets other flags. -/
def Dict.updateFlags (d : Dict V) (atom : Atom) (flags : Fin 64) : Dict V :=
  match find d.fields atom with
  | none => d
  | some f => { d with fields := KeyedLists.set d.fields atom (flags, f.2) }

/-- A property is deleted, unless its flags do not allow it. -/
def Dict.delete (d : Dict V) (atom : Atom) : Bool × Dict V :=
  match find d.fields atom with
  | none => (true, d)
  | some f =>
    if configurable f.1 then (true, { d with fields := d.fields.filter fun e => e.1 ≠ atom })
    else (false, d)

def Dict.setPrototype (d : Dict V) (proto : Option Nat) : Dict V := { d with proto := proto }

theorem Runtime.view_eq (at_o : rt.objects o = some p) (at_s : rt.shapes p.shape = some sh) :
    rt.view o = some (dictOf sh.layout p.prop) := by
  rw [Runtime.view, at_o, Option.bind_some, at_s, Option.map_some]

/-- An object has its shape, and as many values as its shape has properties. -/
theorem Sound.shape_of (S : Sound k rt) (at_o : rt.objects o = some p) :
    ∃ sh, rt.shapes p.shape = some sh ∧ ShapeOk k sh ∧ p.prop.length = sh.prop.length := by
  obtain ⟨sh, at_s⟩ := (S.focus at_o).there _ List.mem_cons_self
  exact ⟨sh, at_s, S.shared.ok _ sh at_s, S.paired o p sh at_o at_s⟩

/-- A call that changes nothing. -/
theorem Sound.unchanged (S : Sound k rt) (le : k ≤ k') (o : Nat) : Changed k' rt o (rt.view o) rt :=
  ⟨S.mono le, (Function.update_eq_self o rt.view).symm, rfl⟩

/-- The shape that an object has for itself is changed. -/
theorem Prepared.finish (S : Sound k rt) (at_o : rt.objects o = some p)
    (P : Prepared k (others rt o) rt o p.prop sh s rt₁) (le : k ≤ k') (ok : ShapeOk k' sh')
    (one : sh'.refCount = 1) (off : sh'.isHashed = false) (length : values.length = sh'.prop.length)
    {objects : Nat → Option (JSObject V)}
    (eq : objects = Function.update rt.objects o (some ⟨s, values⟩)) :
    Changed k' rt o (some (dictOf sh'.layout values))
      { rt₁.putShape s (some sh') with objects := objects } := by
  have alone := P.shared.alone P.at_s rfl
  have H := P.shared.rewrite le P.at_s rfl ok one off
  have older : NoneNew rt₁ (rt₁.putShape s (some sh')) := .put P.at_s fun on => by
    rw [off] at on
    cases on
  have same := P.same.trans (.put alone fun t ne => putShape_ne rt₁ ne (some sh'))
  have changed := S.change (S.lt_next at_o) (some ⟨s, values⟩) (H.objects objects rt₁.nextObject)
    same eq P.next (fun p sh₂ eq at_s => ?_) ((S.canonical.older P.older).older older)
  · rw [Option.bind_some] at changed
    simp only [putShape_self, Option.map_some] at changed
    exact changed
  · obtain rfl := Option.some.inj eq
    obtain rfl := Option.some.inj ((putShape_self ..).symm.trans at_s)
    exact length

theorem Prepared.at_o (P : Prepared k held rt o values sh s rt₁) :
    rt₁.objects o = some ⟨s, values⟩ := by
  rw [P.objects, Function.update_self]

theorem Prepared.put_object (P : Prepared k held rt o values sh s rt₁) (x : Option (JSObject V)) :
    Function.update rt₁.objects o x = Function.update rt.objects o x := by
  rw [P.objects, Function.update_idem]

/-- `js_update_property_flags`. -/
theorem Sound.updateFlags (S : Sound k rt) (at_o : rt.objects o = some p) (live : atom ≠ atomNull)
    {d : Dict V} (shown : rt.view o = some d) (flags : Fin 64) :
    ∃ rt', jsUpdatePropertyFlags rt o atom flags = some rt' ∧
      Changed k rt o (some (d.updateFlags atom flags)) rt' := by
  obtain ⟨sh, at_s, ok, length⟩ := S.shape_of at_o
  obtain rfl := Option.some.inj ((Runtime.view_eq at_o at_s).symm.trans shown)
  rw [jsUpdatePropertyFlags, at_o, Option.bind_some, at_s, Option.bind_some]
  rcases findProperty_cases ok live length with ⟨i, before, pr, v, F, found⟩ | ⟨search, -, found⟩
  · rw [F.search]
    have fields : find (dictOf sh.layout p.prop).fields atom = some (pr.flags, v) := found
    have result : (dictOf sh.layout p.prop).updateFlags atom flags =
        ⟨sh.proto, KeyedLists.set (fieldsOf (names sh.prop) p.prop) atom (flags, v)⟩ := by
      simp only [Dict.updateFlags, fields]
      rfl
    have length' : p.prop.length = (names sh.prop).length := by rw [length, length_names]
    simp only [F.prop, Option.bind_some, result]
    by_cases same : flags = pr.flags
    · subst same
      rw [if_pos rfl, set_of_find (ok.distinct.nodup_keys length') found]
      exact ⟨rt, rfl, shown ▸ S.unchanged (Nat.le_refl k) o⟩
    · obtain ⟨s, rt₁, prepared, P⟩ := (S.focus at_o).prepare at_o at_s
      rw [if_neg same, prepared, Option.bind_some, P.at_o, Option.bind_some, P.at_s,
        Option.map_some]
      obtain ⟨ok', renamed⟩ := (ok.header 1 false sh.hash sh.proto).reflag i flags
      have changed := P.finish S at_o (Nat.le_refl k) ok' rfl rfl (by simpa using length) P.objects
      rw [← fieldsOf_flags ok.distinct length' F.at_name live F.value]
      rw [dictOf, Shape.layout, renamed] at changed
      exact ⟨_, rfl, changed⟩
  · rw [search]
    have fields : find (dictOf sh.layout p.prop).fields atom = none := found
    refine ⟨rt, rfl, ?_⟩
    simp only [Dict.updateFlags, fields]
    exact shown ▸ S.unchanged (Nat.le_refl k) o

/-- `JS_SetPrototypeInternal`. -/
theorem Sound.setPrototype (S : Sound k rt) (at_o : rt.objects o = some p) {d : Dict V}
    (shown : rt.view o = some d) (proto : Option Nat) :
    ∃ rt', setPrototype rt o proto = some rt' ∧ Changed k rt o (some (d.setPrototype proto)) rt' := by
  obtain ⟨sh, at_s, ok, length⟩ := S.shape_of at_o
  obtain rfl := Option.some.inj ((Runtime.view_eq at_o at_s).symm.trans shown)
  rw [Shapes.setPrototype, at_o, Option.bind_some, at_s, Option.bind_some]
  by_cases same : sh.proto = proto
  · subst same
    rw [if_pos rfl]
    exact ⟨rt, rfl, shown ▸ S.unchanged (Nat.le_refl k) o⟩
  · obtain ⟨s, rt₁, prepared, P⟩ := (S.focus at_o).prepare at_o at_s
    rw [if_neg same, prepared, Option.bind_some, P.at_o, Option.bind_some, P.at_s, Option.map_some]
    exact ⟨_, rfl, P.finish S at_o (Nat.le_refl k) (ok.header 1 false sh.hash proto) rfl rfl length
      P.objects⟩

theorem unlinkProperty_header (sh : Shape) (atom : Atom) (i : Nat) (before : Option Nat)
    (pr : ShapeProperty) :
    (unlinkProperty sh atom i before pr).refCount = sh.refCount ∧
      (unlinkProperty sh atom i before pr).isHashed = sh.isHashed ∧
      (unlinkProperty sh atom i before pr).proto = sh.proto := by
  cases before <;> exact ⟨rfl, rfl, rfl⟩

/-- `delete_property`. -/
theorem Sound.delete (S : Sound k rt) (le : k ≤ 2 ^ 26) (at_o : rt.objects o = some p)
    (live : atom ≠ atomNull) {d : Dict V} (shown : rt.view o = some d) :
    ∃ rt', deleteProperty rt o atom = some ((d.delete atom).1, rt') ∧
      Changed k rt o (some (d.delete atom).2) rt' := by
  obtain ⟨sh, at_s, ok, length⟩ := S.shape_of at_o
  obtain rfl := Option.some.inj ((Runtime.view_eq at_o at_s).symm.trans shown)
  rw [deleteProperty, at_o, Option.bind_some, at_s, Option.bind_some]
  rcases findProperty_cases ok live length with ⟨i, before, pr, v, F, found⟩ | ⟨search, -, found⟩
  · rw [F.search]
    have fields : find (dictOf sh.layout p.prop).fields atom = some (pr.flags, v) := found
    simp only [F.prop, Option.bind_some, Dict.delete, fields]
    cases allowed : configurable pr.flags with
    | false => exact ⟨rt, rfl, shown ▸ S.unchanged (Nat.le_refl k) o⟩
    | true =>
      obtain ⟨s, rt₁, prepared, P⟩ := (S.focus at_o).prepare at_o at_s
      rw [prepared]
      simp only [Bool.not_true, Bool.false_eq_true, if_false, if_true, Option.bind_some, deleteFound,
        P.at_o, P.at_s]
      have own := ok.header 1 false sh.hash sh.proto
      obtain ⟨ok', marked⟩ := unlinkProperty_spec own live F.behind F.prop F.name
      obtain ⟨one, off, proto⟩ := unlinkProperty_header
        { sh with refCount := 1, isHashed := false } atom i before pr
      have gone : fieldsOf (names (unlinkProperty { sh with refCount := 1, isHashed := false }
          atom i before pr).prop) p.prop =
            (fieldsOf (names sh.prop) p.prop).filter fun e => e.1 ≠ atom := by
        rw [marked]
        exact fieldsOf_delete ok.distinct F.at_name live
      have length' := congrArg List.length marked
      rw [length_names, List.length_modify, length_names] at length'
      split_ifs with many
      · obtain ⟨sh₂, compacted, ok₂, ⟨one₂, off₂, proto₂⟩, length₂, fields₂⟩ :=
          compactProperties_spec ok' le off many.1 (length.trans length'.symm)
        rw [compacted]
        have changed := P.finish S at_o (Nat.le_refl k) ok₂ (one₂.trans one) off₂ length₂
          (P.put_object _)
        rw [dictOf, Shape.layout, fields₂, gone, proto₂, proto] at changed
        exact ⟨_, rfl, changed⟩
      · have changed := P.finish S at_o (Nat.le_refl k) ok' one off (length.trans length'.symm)
          P.objects
        rw [dictOf, Shape.layout, gone, proto] at changed
        exact ⟨_, rfl, changed⟩
  · rw [search]
    have fields : find (dictOf sh.layout p.prop).fields atom = none := found
    simp only [Dict.delete, fields]
    exact ⟨rt, rfl, shown ▸ S.unchanged (Nat.le_refl k) o⟩

/-- The last part of `add_property`, for a shape that is in the table. -/
theorem Shared.addOwn (H : Shared k (s :: held) rt) (at_o : rt.objects o = some ⟨s, values⟩)
    (at_s : rt.shapes s = some sh) (one : sh.refCount = 1) (hashed : sh.isHashed = true)
    (lt : k < 2 ^ 26) (live : atom ≠ atomNull) (fresh : ∀ x ∈ names sh.prop, x.1 ≠ atom)
    (flags : Fin 64) (v : V) :
    ∃ rt' sh', addOwnShapeProperty rt o atom flags v = some rt' ∧ Shared (k + 1) (s :: held) rt' ∧
      (∀ t, t ≠ s → rt'.shapes t = rt.shapes t) ∧ rt'.shapes s = some sh' ∧
      sh'.layout = (sh.proto, names sh.prop ++ [(atom, flags)]) ∧
      rt'.objects = Function.update rt.objects o (some ⟨s, values ++ [v]⟩) ∧
      rt'.nextObject = rt.nextObject := by
  obtain ⟨rt₁, unlink, eq, H₁⟩ :=
    (H.objects (Function.update rt.objects o (some ⟨s, values ++ [v]⟩)) rt.nextObject).unhash
      at_s one hashed
  obtain ⟨ok, grown⟩ := addShapeProperty_spec (H.ok s sh at_s) lt live fresh flags
  obtain ⟨count, same, proto⟩ := addShapeProperty_header sh atom flags
  have own := ok.header 1 false sh.hash sh.proto
  have H₂ := H₁.rewrite (Nat.le_succ k) (putShape_self ..) rfl own one.symm rfl
  have H₃ := H₂.link (putShape_self ..) rfl
  rw [putShape_putShape, putShape_putShape] at H₃
  have hash : hashOf sh.proto (names (addShapeProperty sh atom flags).prop) =
      shapeHash (shapeHash sh.hash atom) (.ofNat flags.val) := by
    rw [grown, hashOf_append, H.hash s sh at_s hashed]
  have written : { addShapeProperty sh atom flags with
      refCount := 1, isHashed := true, proto := sh.proto,
      hash := hashOf sh.proto (names (addShapeProperty sh atom flags).prop) } =
        { addShapeProperty sh atom flags with
          hash := shapeHash (shapeHash sh.hash atom) (.ofNat flags.val) } := by
    rw [hash, ← proto, ← one, ← count, ← hashed, ← same]
  have result : addOwnShapeProperty rt o atom flags v = some (jsShapeHashLink
      (rt₁.putShape s (some { addShapeProperty sh atom flags with
        hash := shapeHash (shapeHash sh.hash atom) (.ofNat flags.val) }))
      s (shapeHash (shapeHash sh.hash atom) (.ofNat flags.val))) := by
    rw [addOwnShapeProperty, at_o, Option.bind_some, at_s, Option.bind_some,
      if_neg (not_not.mpr one)]
    simp only [hashed, if_true]
    have unlink' : jsShapeHashUnlink (rt.putObject o (some ⟨s, values ++ [v]⟩)) s sh.hash =
      some rt₁ := unlink
    rw [unlink', Option.map_some]
  refine ⟨_, { addShapeProperty sh atom flags with
    hash := shapeHash (shapeHash sh.hash atom) (.ofNat flags.val) }, result, ?_, ?_, ?_, ?_, ?_, ?_⟩
  · rw [← written, ← hash]
    exact H₃
  · intro t ne
    rw [eq]
    exact putShape_ne _ ne _
  · exact putShape_self ..
  · rw [Shape.layout, proto, grown]
  · rw [eq]
    rfl
  · rw [eq]
    rfl

section Add

variable (S : Sound k rt) (at_o : rt.objects o = some p) (at_s : rt.shapes p.shape = some sh)

include S at_o at_s

/-- The object has a shape with one property more. -/
theorem Sound.longer (H : Shared k' (s :: others rt o) rt') (same : SameLayout (others rt o) rt rt')
    (objects : rt'.objects = Function.update rt.objects o (some ⟨s, p.prop ++ [v]⟩))
    (next : rt'.nextObject = rt.nextObject) (at_new : rt'.shapes s = some sh')
    (layout : sh'.layout = (sh.proto, names sh.prop ++ [(atom, flags)])) (canonical : Canonical rt') :
    Changed k' rt o
      (some (dictOf (sh.proto, names sh.prop ++ [(atom, flags)]) (p.prop ++ [v]))) rt' := by
  have changed := S.change (S.lt_next at_o) (some ⟨s, p.prop ++ [v]⟩) H same objects next
    (fun q sh₂ eq at_q => ?_) canonical
  · rw [Option.bind_some] at changed
    simp only [at_new, Option.map_some, layout] at changed
    exact changed
  · obtain rfl := Option.some.inj eq
    obtain rfl := Option.some.inj (at_new.symm.trans at_q)
    have length := congrArg List.length (Prod.mk.inj layout).2
    rw [length_names, List.length_append, length_names, List.length_singleton] at length
    rw [length, List.length_append, S.paired o p sh at_o at_s, List.length_singleton]

/-- The shape that has the property already. -/
theorem Sound.add_found (hashed : sh.isHashed = true)
    (search : findHashedShapeProp rt sh atom flags = some s) (v : V) :
    ∃ rt', addProperty rt o atom flags v = some rt' ∧
      Changed k rt o
        (some (dictOf (sh.proto, names sh.prop ++ [(atom, flags)]) (p.prop ++ [v]))) rt' := by
  obtain ⟨sh₁, at₁, hashed₁, proto, longer⟩ := S.shared.prop_found search
  have dup := ((S.focus at_o).dup at₁ hashed₁).perm (.swap p.shape s _)
  have older : NoneNew rt (rt.putShape s (some { sh₁ with refCount := sh₁.refCount + 1 })) :=
    .put at₁ fun on => ⟨on, rfl⟩
  obtain ⟨rt₂, freed, H, same, older', objects, next⟩ := dup.release
  have layout := same s List.mem_cons_self
  rw [putShape_self, Option.map_some, Option.map_eq_some_iff] at layout
  obtain ⟨sh₂, at₂, eq⟩ := layout
  refine ⟨rt₂.putObject o (some ⟨s, p.prop ++ [v]⟩), ?_, ?_⟩
  · rw [addProperty, at_o, Option.bind_some, at_s, Option.bind_some, if_pos hashed, search]
    simp only [at₁, Option.map_some, replaceShape, freed]
  · have counted : SameLayout (others rt o) rt
        (rt.putShape s (some { sh₁ with refCount := sh₁.refCount + 1 })) := .write _ at₁ rfl
    have made : rt₂.objects = rt.objects := objects
    refine S.longer at_o at_s (H.objects _ _)
      (counted.trans fun t mem => same t (List.mem_cons_of_mem s mem)) ?_ next at₂ ?_
      ((S.canonical.older older).older older')
    · rw [← made]
      rfl
    · rw [eq, Shape.layout, proto, longer]

theorem Sound.add_unhashed (off : sh.isHashed = false) (lt : k < 2 ^ 26) (live : atom ≠ atomNull)
    (fresh : ∀ x ∈ names sh.prop, x.1 ≠ atom) (v : V) :
    ∃ rt', addProperty rt o atom flags v = some rt' ∧
      Changed (k + 1) rt o
        (some (dictOf (sh.proto, names sh.prop ++ [(atom, flags)]) (p.prop ++ [v]))) rt' := by
  obtain ⟨-, P⟩ := (S.focus at_o).prepare_own at_o at_s off
  have one := S.shared.own p.shape sh at_s off
  obtain ⟨ok, grown⟩ := addShapeProperty_spec (S.shared.ok p.shape sh at_s) lt live fresh flags
  obtain ⟨count, same, proto⟩ := addShapeProperty_header sh atom flags
  have length := congrArg List.length grown
  rw [length_names, List.length_append, length_names, List.length_singleton] at length
  have values : (p.prop ++ [v]).length = (addShapeProperty sh atom flags).prop.length := by
    rw [length, List.length_append, S.paired o p sh at_o at_s, List.length_singleton]
  have changed := P.finish S at_o (Nat.le_succ k) ok (count.trans one) (same.trans off) values rfl
  rw [Shape.layout, grown, proto] at changed
  refine ⟨_, ?_, changed⟩
  rw [addProperty, at_o, Option.bind_some, at_s, Option.bind_some, addOwnShapeProperty, at_o,
    Option.bind_some, at_s, Option.bind_some]
  simp only [off, one]
  rfl

/-- The shape is in the table and gets the property. -/
theorem Sound.add_own (hashed : sh.isHashed = true) (one : sh.refCount = 1)
    (search : findHashedShapeProp rt sh atom flags = none) (lt : k < 2 ^ 26)
    (live : atom ≠ atomNull) (fresh : ∀ x ∈ names sh.prop, x.1 ≠ atom) (v : V) :
    ∃ rt', addProperty rt o atom flags v = some rt' ∧
      Changed (k + 1) rt o
        (some (dictOf (sh.proto, names sh.prop ++ [(atom, flags)]) (p.prop ++ [v]))) rt' := by
  have focus := S.focus at_o
  obtain ⟨rt', sh', added, H, at_ne, at_new, layout, objects, next⟩ :=
    focus.addOwn at_o at_s one hashed lt live fresh flags v
  refine ⟨rt', ?_, S.longer at_o at_s H (.put (focus.alone at_s one) at_ne) objects next at_new
    layout ?_⟩
  · rw [addProperty, at_o, Option.bind_some, at_s, Option.bind_some, if_pos hashed, search]
    simp only [one, ne_eq, not_true, if_false, added]
  · refine S.canonical.add (fun t sh ne at_t on => ⟨sh, at_ne t ne ▸ at_t, on, rfl⟩) at_new ?_
    intro t sh₂ at_t on
    rw [layout]
    exact S.shared.prop_not_found (S.shared.hash p.shape sh at_s hashed) search at_t on

/-- The shape is in the table, others hold it, and a copy gets the property. -/
theorem Sound.add_copy (hashed : sh.isHashed = true) (more : sh.refCount ≠ 1)
    (search : findHashedShapeProp rt sh atom flags = none) (lt : k < 2 ^ 26)
    (live : atom ≠ atomNull) (fresh : ∀ x ∈ names sh.prop, x.1 ≠ atom) (v : V) :
    ∃ rt', addProperty rt o atom flags v = some rt' ∧
      Changed (k + 1) rt o
        (some (dictOf (sh.proto, names sh.prop ++ [(atom, flags)]) (p.prop ++ [v]))) rt' := by
  have focus := S.focus at_o
  obtain ⟨rt₁, freed, C⟩ := focus.clone at_s hashed more true
  have at_o₁ : (rt₁.putObject o (some ⟨rt.nextShape, p.prop⟩)).objects o =
      some ⟨rt.nextShape, p.prop⟩ := Function.update_self ..
  obtain ⟨rt', sh', added, H, at_ne, at_new, layout, objects, next⟩ :=
    Shared.addOwn (C.shared.objects _ _) at_o₁ C.at_copy rfl rfl lt live fresh flags v
  have made : rt'.objects = Function.update rt.objects o (some ⟨rt.nextShape, p.prop ++ [v]⟩) := by
    rw [objects, ← C.objects]
    exact Function.update_idem ..
  have same : SameLayout (others rt o) rt rt' :=
    (C.same focus).trans (.put (C.shared.alone C.at_copy rfl) at_ne)
  refine ⟨rt', ?_, S.longer at_o at_s H same made (next.trans C.next) at_new layout ?_⟩
  · rw [addProperty, at_o, Option.bind_some, at_s, Option.bind_some, if_pos hashed, search]
    simp only [more, ne_eq, not_false_eq_true, if_true, replaceShape, freed, Option.map_some,
      Option.bind_some]
    exact added
  · refine S.canonical.add (fun t sh₂ ne at_t on => ?_) at_new ?_
    · obtain ⟨sh₃, at₃, hashed₃, layout₃⟩ := C.old t sh₂ ne ((at_ne t ne).symm.trans at_t)
      exact ⟨sh₃, at₃, hashed₃.trans on, layout₃⟩
    · intro t sh₂ at_t on
      rw [layout]
      exact S.shared.prop_not_found (S.shared.hash p.shape sh at_s hashed) search at_t on

end Add

/-- `add_property` of a name that is not there. -/
theorem Sound.add (S : Sound k rt) (lt : k < 2 ^ 26) (at_o : rt.objects o = some p)
    (at_s : rt.shapes p.shape = some sh) (live : atom ≠ atomNull)
    (fresh : ∀ x ∈ names sh.prop, x.1 ≠ atom) (flags : Fin 64) (v : V) :
    ∃ rt', addProperty rt o atom flags v = some rt' ∧
      Changed (k + 1) rt o
        (some (dictOf (sh.proto, names sh.prop ++ [(atom, flags)]) (p.prop ++ [v]))) rt' := by
  cases hashed : sh.isHashed with
  | false => exact S.add_unhashed at_o at_s hashed lt live fresh v
  | true =>
    cases search : findHashedShapeProp rt sh atom flags with
    | some s =>
      obtain ⟨rt', added, changed⟩ := S.add_found at_o at_s hashed search v
      exact ⟨rt', added, changed.sound.mono (Nat.le_succ k), changed.view, changed.next⟩
    | none =>
      by_cases one : sh.refCount = 1
      · exact S.add_own at_o at_s hashed one search lt live fresh v
      · exact S.add_copy at_o at_s hashed one search lt live fresh v

/-- A write. -/
theorem Sound.set (S : Sound k rt) (lt : k < 2 ^ 26) (at_o : rt.objects o = some p)
    (live : atom ≠ atomNull) {d : Dict V} (shown : rt.view o = some d) (v : V) :
    ∃ rt', setProperty rt o atom v = some rt' ∧ Changed (k + 1) rt o (some (d.set atom v)) rt' := by
  obtain ⟨sh, at_s, ok, length⟩ := S.shape_of at_o
  obtain rfl := Option.some.inj ((Runtime.view_eq at_o at_s).symm.trans shown)
  rw [setProperty, at_o, Option.bind_some, at_s, Option.bind_some]
  have length' : p.prop.length = (names sh.prop).length := by rw [length, length_names]
  rcases findProperty_cases ok live length with ⟨i, before, pr, v', F, found⟩ |
    ⟨search, absent, found⟩
  · rw [F.search]
    have result : (dictOf sh.layout p.prop).set atom v =
        ⟨sh.proto, KeyedLists.set (fieldsOf (names sh.prop) p.prop) atom (pr.flags, v)⟩ := by
      have fields : find (dictOf sh.layout p.prop).fields atom = some (pr.flags, v') := found
      simp only [Dict.set, fields]
      rfl
    rw [result, ← fieldsOf_set ok.distinct length' F.at_name live F.value]
    have changed := S.change (S.lt_next at_o) (some ⟨p.shape, p.prop.set i v⟩)
      ((S.focus at_o).objects (Function.update rt.objects o (some ⟨p.shape, p.prop.set i v⟩))
        rt.nextObject)
      (.refl _ rt) rfl rfl (fun q sh₂ eq at_q => ?_) S.canonical
    · rw [Option.bind_some] at changed
      simp only [at_s, Option.map_some] at changed
      exact ⟨_, rfl, changed.sound.mono (Nat.le_succ k), changed.view, changed.next⟩
    · obtain rfl := Option.some.inj eq
      obtain rfl := Option.some.inj (at_s.symm.trans at_q)
      simpa using length
  · rw [search]
    have result : (dictOf sh.layout p.prop).set atom v =
        dictOf (sh.proto, names sh.prop ++ [(atom, propCWE)]) (p.prop ++ [v]) := by
      have fields : find (dictOf sh.layout p.prop).fields atom = none := found
      simp only [Dict.set, fields]
      rw [dictOf, dictOf, fieldsOf_append length' live, Option.map_none, Option.getD_none]
      have missing := find_eq_none_iff.mp found
      exact congrArg (Dict.mk sh.proto) (set_of_notMem missing)
    rw [result]
    exact S.add lt at_o at_s live absent propCWE v

end Shapes
