import Goqjs.ShapeHash

/-!
# Objects over shapes

What an object shows are its prototype and its properties. A call changes what its own object
shows, and leaves alone what the others show, with which that object may have its shape in common.
-/

namespace Shapes

open ReferenceGraph

variable {V : Type} {k k' s o : Nat} {held : List Nat} {rt rt' : Runtime V} {sh : Shape}
  {p : JSObject V} {values : List V} {atom : Atom} {flags : Fin 64} {v : V}

/-- A prototype and properties under their names. -/
structure Dict (V : Type) where
  proto : Option Nat
  fields : List (Atom × (Fin 64 × V))

/-- The values of an object under the names of a shape. -/
def dictOf (layout : Option Nat × List (Atom × Fin 64)) (values : List V) : Dict V :=
  ⟨layout.1, fieldsOf layout.2 values⟩

def Runtime.view (rt : Runtime V) (o : Nat) : Option (Dict V) :=
  (rt.objects o).bind fun p => (rt.shapes p.shape).map fun sh => dictOf sh.layout p.prop

/-- The shape that an object holds. -/
def holding (objects : Nat → Option (JSObject V)) (o : Nat) : List Nat :=
  ((objects o).map JSObject.shape).toList

def holders (rt : Runtime V) : List Nat := heldBy (holding rt.objects) (List.range rt.nextObject)

/-- The shapes that the other objects hold. -/
def others (rt : Runtime V) (o : Nat) : List Nat :=
  heldBy (holding rt.objects) ((List.range rt.nextObject).erase o)

/-- No two shapes that the runtime finds are alike. -/
def Canonical (rt : Runtime V) : Prop :=
  ∀ s s' sh sh', rt.shapes s = some sh → rt.shapes s' = some sh' → sh.isHashed = true →
    sh'.isHashed = true → sh.layout = sh'.layout → s = s'

/-- Shapes and objects belong together. -/
structure Sound (k : Nat) (rt : Runtime V) : Prop where
  shared : Shared k (holders rt) rt
  unused : ∀ o, rt.nextObject ≤ o → rt.objects o = none
  paired : ∀ o p sh, rt.objects o = some p → rt.shapes p.shape = some sh →
    p.prop.length = sh.prop.length
  canonical : Canonical rt

/-- What a call on one object leaves: a sound runtime in which this object shows something else. -/
structure Changed (k : Nat) (rt : Runtime V) (o : Nat) (d : Option (Dict V)) (rt' : Runtime V) :
    Prop where
  sound : Sound k rt'
  view : rt'.view = Function.update rt.view o d
  next : rt'.nextObject = rt.nextObject

theorem Sound.lt_next (S : Sound k rt) (at_o : rt.objects o = some p) : o < rt.nextObject := by
  by_contra outside
  rw [S.unused o (by omega)] at at_o
  cases at_o

theorem holders_perm (rt : Runtime V) (lt : o < rt.nextObject) :
    (holders rt).Perm (((rt.objects o).map JSObject.shape).toList ++ others rt o) :=
  heldBy_erase (holding rt.objects) (List.mem_range.mpr lt)

/-- The object in front of the others. -/
theorem Sound.focus (S : Sound k rt) (at_o : rt.objects o = some p) :
    Shared k (p.shape :: others rt o) rt := by
  have perm := holders_perm rt (S.lt_next at_o)
  rw [at_o] at perm
  exact S.shared.perm perm

theorem Sound.mem_others (S : Sound k rt) {o' : Nat} (ne : o' ≠ o) (at_o : rt.objects o' = some p) :
    p.shape ∈ others rt o := by
  apply mem_heldBy.mpr
  refine ⟨o', (List.mem_erase_of_ne ne).mpr (List.mem_range.mpr (S.lt_next at_o)), ?_⟩
  rw [holding, at_o]
  exact List.mem_singleton_self _

theorem others_congr (same : ∀ t, t ≠ o → rt'.objects t = rt.objects t)
    (next : rt'.nextObject = rt.nextObject) : others rt' o = others rt o := by
  rw [others, next]
  apply heldBy_congr
  intro t mem
  have ne := ((List.Nodup.mem_erase_iff List.nodup_range).mp mem).1
  rw [holding, same t ne, holding]

/-- One object gets another shape or other values, or goes. -/
theorem Sound.change (S : Sound k rt) (lt : o < rt.nextObject) (x : Option (JSObject V))
    (H : Shared k' ((x.map JSObject.shape).toList ++ others rt o) rt')
    (same : SameLayout (others rt o) rt rt') (objects : rt'.objects = Function.update rt.objects o x)
    (next : rt'.nextObject = rt.nextObject)
    (paired : ∀ p sh, x = some p → rt'.shapes p.shape = some sh → p.prop.length = sh.prop.length)
    (canonical : Canonical rt') :
    Changed k' rt o
      (x.bind fun p => (rt'.shapes p.shape).map fun sh => dictOf sh.layout p.prop) rt' := by
  have at_ne : ∀ t, t ≠ o → rt'.objects t = rt.objects t := by
    intro t ne
    rw [objects, Function.update_of_ne ne]
  have at_self : rt'.objects o = x := by rw [objects, Function.update_self]
  refine ⟨⟨?_, ?_, ?_, canonical⟩, ?_, next⟩
  · have perm := holders_perm rt' (next ▸ lt)
    rw [at_self, others_congr at_ne next] at perm
    exact H.perm perm.symm
  · intro t le
    rw [at_ne t (by omega)]
    exact S.unused t (next ▸ le)
  · intro t p sh at_t at_s
    by_cases here : t = o
    · subst here
      exact paired p sh (at_self.symm.trans at_t) at_s
    · rw [at_ne t here] at at_t
      have layout := same p.shape (S.mem_others here at_t)
      rw [at_s, Option.map_some, eq_comm, Option.map_eq_some_iff] at layout
      obtain ⟨sh', at_s', eq⟩ := layout
      rw [S.paired t p sh' at_t at_s', ← length_names, ← length_names]
      exact congrArg List.length (Prod.mk.inj eq).2
  · funext t
    by_cases here : t = o
    · subst here
      rw [Function.update_self, Runtime.view, at_self]
    · rw [Function.update_of_ne here, Runtime.view, Runtime.view, at_ne t here]
      cases at_t : rt.objects t with
      | none => rfl
      | some p =>
        have layout := same p.shape (S.mem_others here at_t)
        have shown := congrArg (Option.map fun l => dictOf l p.prop) layout
        rw [Option.map_map, Option.map_map] at shown
        exact shown

theorem Canonical.older (C : Canonical rt) (older : NoneNew rt rt') : Canonical rt' := by
  intro t t' sh sh' at_t at_t' on on' layout
  obtain ⟨sh₁, at₁, on₁, eq₁⟩ := older t sh at_t on
  obtain ⟨sh₂, at₂, on₂, eq₂⟩ := older t' sh' at_t' on'
  exact C t t' sh₁ sh₂ at₁ at₂ on₁ on₂ (by rw [eq₁, eq₂, layout])

/-- One shape with a new layout is among those that are found. -/
theorem Canonical.add (C : Canonical rt)
    (older : ∀ t sh, t ≠ s → rt'.shapes t = some sh → sh.isHashed = true →
      ∃ sh', rt.shapes t = some sh' ∧ sh'.isHashed = true ∧ sh'.layout = sh.layout)
    (at_s : rt'.shapes s = some sh) (new : ∀ t sh', rt.shapes t = some sh' → sh'.isHashed = true →
      sh'.layout ≠ sh.layout) : Canonical rt' := by
  have apart : ∀ t sh', t ≠ s → rt'.shapes t = some sh' → sh'.isHashed = true →
      sh'.layout ≠ sh.layout := by
    intro t sh' ne at_t on
    obtain ⟨sh₁, at₁, on₁, eq₁⟩ := older t sh' ne at_t on
    exact eq₁ ▸ new t sh₁ at₁ on₁
  intro t t' sh₁ sh₂ at_t at_t' on on' layout
  by_cases here : t = s
  · by_cases here' : t' = s
    · exact here.trans here'.symm
    · subst here
      obtain rfl := Option.some.inj (at_s.symm.trans at_t)
      exact absurd layout.symm (apart t' sh₂ here' at_t' on')
  · by_cases here' : t' = s
    · subst here'
      obtain rfl := Option.some.inj (at_s.symm.trans at_t')
      exact absurd layout (apart t sh₁ here at_t on)
    · obtain ⟨sh₃, at₃, on₃, eq₃⟩ := older t sh₁ here at_t on
      obtain ⟨sh₄, at₄, on₄, eq₄⟩ := older t' sh₂ here' at_t' on'
      exact C t t' sh₃ sh₄ at₃ at₄ on₃ on₄ (by rw [eq₃, eq₄, layout])

theorem Sound.mono (S : Sound k rt) (le : k ≤ k') : Sound k' rt :=
  { S with shared := S.shared.mono le }

/-- `free_object`. -/
theorem Sound.free (S : Sound k rt) (at_o : rt.objects o = some p) :
    ∃ rt', freeObject rt o = some rt' ∧ Changed k rt o none rt' := by
  obtain ⟨rt₁, freed, H, same, older, objects, next⟩ := (S.focus at_o).release
  refine ⟨rt₁.putObject o none, ?_, ?_⟩
  · rw [freeObject, at_o, Option.bind_some, freed, Option.map_some]
  · refine S.change (S.lt_next at_o) none (H.objects _ _) same ?_ next nofun (S.canonical.older older)
    rw [← objects]
    rfl

/-- An object more, without a shape so far. -/
theorem Sound.grow (S : Sound k rt) : Sound k { rt with nextObject := rt.nextObject + 1 } ∧
    others { rt with nextObject := rt.nextObject + 1 } rt.nextObject = holders rt := by
  have none_held : holding rt.objects rt.nextObject = [] := by
    rw [holding, S.unused _ (Nat.le_refl _)]
    rfl
  constructor
  · refine ⟨?_, fun o le => S.unused o (by simp only at le; omega), S.paired, S.canonical⟩
    have more : holders { rt with nextObject := rt.nextObject + 1 } = holders rt := by
      rw [holders, List.range_succ, heldBy_append, heldBy_cons, heldBy_nil, none_held]
      exact List.append_nil _
    rw [more]
    exact S.shared.objects rt.objects (rt.nextObject + 1)
  · have rest : (List.range (rt.nextObject + 1)).erase rt.nextObject =
        List.range rt.nextObject := by
      rw [List.range_succ, List.erase_append_right _ (by simp), List.erase_cons_head,
        List.append_nil]
    rw [others, rest]
    rfl

/-- An object comes with a shape that has no properties. -/
theorem Sound.create (S : Sound k rt) (H : Shared k (s :: holders rt) rt')
    (same : SameLayout (holders rt) rt rt') (objects : rt'.objects = rt.objects)
    (next : rt'.nextObject = rt.nextObject) (at_s : rt'.shapes s = some sh) (empty : sh.prop = [])
    (canonical : Canonical rt') :
    Sound k (newObjectFromShape rt' s) ∧
      (newObjectFromShape rt' s).view =
        Function.update rt.view rt.nextObject (some ⟨sh.proto, []⟩) ∧
      (newObjectFromShape rt' s).nextObject = rt.nextObject + 1 := by
  obtain ⟨grown, rest⟩ := S.grow
  have made : (newObjectFromShape rt' s).objects =
      Function.update rt.objects rt.nextObject (some ⟨s, []⟩) := by
    rw [← objects, ← next]
    rfl
  have counted : (newObjectFromShape rt' s).nextObject = rt.nextObject + 1 :=
    congrArg (· + 1) next
  have changed := grown.change (Nat.lt_succ_self _) (some ⟨s, []⟩)
    (by rw [rest]; exact H.objects _ _) (by rw [rest]; exact same) made counted
    (fun p sh' eq at_s' => ?_) canonical
  · refine ⟨changed.sound, changed.view.trans ?_, counted⟩
    have at_s' : (newObjectFromShape rt' s).shapes s = some sh := at_s
    rw [Option.bind_some, at_s', Option.map_some, dictOf, Shape.layout, empty]
    rfl
  · obtain rfl := Option.some.inj eq
    obtain rfl := Option.some.inj (at_s.symm.trans at_s')
    rw [empty]
    rfl

theorem Sound.fresh_shape (S : Sound k rt) : rt.nextShape ∉ holders rt := by
  intro mem
  obtain ⟨sh, at_n⟩ := S.shared.there _ mem
  exact absurd (S.shared.lt_next at_n) (Nat.lt_irrefl _)

/-- `JS_NewObjectProtoClass`. -/
theorem Sound.newObjectProtoClass (S : Sound k rt) (proto : Option Nat) :
    Sound k (newObjectProtoClass rt proto) ∧
      (newObjectProtoClass rt proto).view =
        Function.update rt.view rt.nextObject (some ⟨proto, []⟩) ∧
      (newObjectProtoClass rt proto).nextObject = rt.nextObject + 1 := by
  cases search : findHashedShapeProto rt proto with
  | some s =>
    obtain ⟨sh, at_s, hashed, rfl, empty⟩ := S.shared.proto_found search
    have older : NoneNew rt (rt.putShape s (some { sh with refCount := sh.refCount + 1 })) :=
      .put at_s fun on => ⟨on, rfl⟩
    have created := S.create (S.shared.dup at_s hashed) (.write _ at_s rfl) rfl rfl
      (putShape_self ..) empty (S.canonical.older older)
    rw [Shapes.newObjectProtoClass, search]
    simp only [at_s, Option.map_some]
    exact created
  | none =>
    obtain ⟨H, shapes, objects, count⟩ := S.shared.new_hashed proto
    have at_ne : ∀ t, t ≠ rt.nextShape → (jsNewShape rt proto).shapes t = rt.shapes t := by
      intro t ne
      rw [shapes, Function.update_of_ne ne]
    have at_s : (jsNewShape rt proto).shapes rt.nextShape = some
        ⟨1, true, shapeInitialHash proto, List.replicate 4 0, 2, 0, proto, []⟩ := by
      rw [shapes, Function.update_self]
    have canonical : Canonical (jsNewShape rt proto) := by
      refine S.canonical.add (fun t sh ne at_t on => ⟨sh, at_ne t ne ▸ at_t, on, rfl⟩) at_s ?_
      intro t sh at_t on
      exact S.shared.proto_not_found search at_t on
    rw [Shapes.newObjectProtoClass, search]
    exact S.create H (.put S.fresh_shape at_ne) objects count at_s rfl canonical

/-- `JS_NewObjectProtoClassAlloc`. -/
theorem Sound.newObjectProtoClassAlloc (S : Sound k rt) (proto : Option Nat) (nAllocProps : Nat) :
    Sound k (newObjectProtoClassAlloc rt proto nAllocProps) ∧
      (newObjectProtoClassAlloc rt proto nAllocProps).view =
        Function.update rt.view rt.nextObject (some ⟨proto, []⟩) ∧
      (newObjectProtoClassAlloc rt proto nAllocProps).nextObject = rt.nextObject + 1 := by
  have made : ∀ hashSize propSize, 0 < hashSize →
      Sound k (newObjectFromShape (jsNewShapeNohash rt proto hashSize propSize) rt.nextShape) ∧
      (newObjectFromShape (jsNewShapeNohash rt proto hashSize propSize) rt.nextShape).view =
        Function.update rt.view rt.nextObject (some ⟨proto, []⟩) ∧
      (newObjectFromShape (jsNewShapeNohash rt proto hashSize propSize) rt.nextShape).nextObject =
        rt.nextObject + 1 := by
    intro hashSize propSize positive
    have at_ne : ∀ t, t ≠ rt.nextShape →
        (jsNewShapeNohash rt proto hashSize propSize).shapes t = rt.shapes t :=
      fun t ne => putShape_ne rt ne _
    have at_s := putShape_self rt rt.nextShape
      (some ⟨1, false, 0, List.replicate hashSize 0, propSize, 0, proto, []⟩)
    have older : NoneNew rt (jsNewShapeNohash rt proto hashSize propSize) := by
      intro t sh at_t on
      by_cases here : t = rt.nextShape
      · subst here
        obtain rfl := Option.some.inj (at_s.symm.trans at_t)
        cases on
      · exact ⟨sh, at_ne t here ▸ at_t, on, rfl⟩
    exact S.create (S.shared.new_nohash positive proto propSize) (.put S.fresh_shape at_ne) rfl rfl
      at_s rfl (S.canonical.older older)
  rw [Shapes.newObjectProtoClassAlloc]
  split_ifs
  · exact made 4 2 (by omega)
  · exact made _ _ (Nat.two_pow_pos _)

end Shapes
