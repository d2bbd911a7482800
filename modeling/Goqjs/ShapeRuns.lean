import Goqjs.ShapeChanges

/-!
# Runs over shapes

Against objects that share nothing, every call gives the same answer and leaves the same
properties. No assertion fails, every shape counts its objects, and no two objects with shapes that
the runtime finds have different shapes for the same properties.
-/

namespace Shapes

open KeyedLists ReferenceGraph

variable {V : Type} {k s o : Nat} {rt rt' : Runtime V} {sh sh' : Shape} {p p' : JSObject V}

structure Store (V : Type) where
  objects : Nat → Option (Dict V)
  nextObject : Nat

def Store.init : Store V := ⟨fun _ => none, 0⟩

def Store.put (st : Store V) (o : Nat) (d : Option (Dict V)) : Store V :=
  { st with objects := Function.update st.objects o d }

def Store.create (st : Store V) (proto : Option Nat) : Store V :=
  { st.put st.nextObject (some ⟨proto, []⟩) with nextObject := st.nextObject + 1 }

/-- A call and its answer. -/
def Store.exec (st : Store V) : Op V → Bool × Store V
  | .create proto => (true, st.create proto)
  | .createAlloc proto _ => (true, st.create proto)
  | .free o => (true, st.put o none)
  | .set o atom v => (true, st.put o ((st.objects o).map fun d => d.set atom v))
  | .updateFlags o atom flags =>
    (true, st.put o ((st.objects o).map fun d => d.updateFlags atom flags))
  | .delete o atom =>
    let t := (st.objects o).map fun d => d.delete atom
    ((t.map Prod.fst).getD true, st.put o (t.map Prod.snd))
  | .setPrototype o proto => (true, st.put o ((st.objects o).map fun d => d.setPrototype proto))

def Store.execAll (st : Store V) : List (Op V) → List Bool × Store V
  | [] => ([], st)
  | op :: ops =>
    if op.allowed (fun o => (st.objects o).isSome) then
      let t := st.exec op
      let u := t.2.execAll ops
      (t.1 :: u.1, u.2)
    else st.execAll ops

/-- What the objects of a runtime show. -/
def Runtime.store (rt : Runtime V) : Store V := ⟨rt.view, rt.nextObject⟩

theorem Sound.view_isSome (S : Sound k rt) (o : Nat) :
    (rt.view o).isSome = (rt.objects o).isSome := by
  cases at_o : rt.objects o with
  | none => simp [Runtime.view, at_o]
  | some p =>
    obtain ⟨sh, at_s, -⟩ := S.shape_of at_o
    simp [Runtime.view, at_o, at_s]

theorem Sound.allowed_iff (S : Sound k rt) (op : Op V) :
    op.allowed (fun o => (rt.store.objects o).isSome) =
      op.allowed fun o => (rt.objects o).isSome := by
  have same : (fun o => (rt.store.objects o).isSome) = fun o => (rt.objects o).isSome :=
    funext S.view_isSome
  rw [same]

/-- An object that is there, and what it shows. -/
theorem Sound.shown (S : Sound k rt) (there : (rt.objects o).isSome = true) :
    ∃ p d, rt.objects o = some p ∧ rt.store.objects o = some d := by
  obtain ⟨p, at_o⟩ := Option.isSome_iff_exists.mp there
  obtain ⟨sh, at_s, -⟩ := S.shape_of at_o
  exact ⟨p, _, at_o, Runtime.view_eq at_o at_s⟩

theorem Changed.store {d : Option (Dict V)} (C : Changed k rt o d rt') :
    rt'.store = rt.store.put o d := by
  rw [Runtime.store, C.view, C.next]
  rfl

/-- A call does to the runtime what it does to objects that share nothing. -/
theorem Sound.exec (S : Sound k rt) (lt : k < 2 ^ 26) (op : Op V)
    (allowed : op.allowed (fun o => (rt.objects o).isSome) = true) :
    ∃ rt', exec rt op = some ((rt.store.exec op).1, rt') ∧ Sound (k + 1) rt' ∧
      rt'.store = (rt.store.exec op).2 := by
  cases op with
  | create proto =>
    obtain ⟨sound, view, next⟩ := S.newObjectProtoClass proto
    refine ⟨_, rfl, sound.mono (Nat.le_succ k), ?_⟩
    rw [Runtime.store, view, next]
    rfl
  | createAlloc proto n =>
    obtain ⟨sound, view, next⟩ := S.newObjectProtoClassAlloc proto n
    refine ⟨_, rfl, sound.mono (Nat.le_succ k), ?_⟩
    rw [Runtime.store, view, next]
    rfl
  | free o =>
    obtain ⟨p, d, at_o, shown⟩ := S.shown allowed
    obtain ⟨rt', freed, C⟩ := S.free at_o
    refine ⟨rt', ?_, C.sound.mono (Nat.le_succ k), C.store⟩
    rw [Shapes.exec, freed]
    rfl
  | set o atom v =>
    obtain ⟨there, live⟩ := (Bool.and_eq_true _ _).mp allowed
    obtain ⟨p, d, at_o, shown⟩ := S.shown there
    obtain ⟨rt', written, C⟩ := S.set lt at_o (by simpa using live) shown v
    refine ⟨rt', ?_, C.sound, ?_⟩
    · rw [Shapes.exec, written]
      rfl
    · rw [C.store, Store.exec, shown]
      rfl
  | updateFlags o atom flags =>
    obtain ⟨there, live⟩ := (Bool.and_eq_true _ _).mp allowed
    obtain ⟨p, d, at_o, shown⟩ := S.shown there
    obtain ⟨rt', updated, C⟩ := S.updateFlags at_o (by simpa using live) shown flags
    refine ⟨rt', ?_, C.sound.mono (Nat.le_succ k), ?_⟩
    · rw [Shapes.exec, updated]
      rfl
    · rw [C.store, Store.exec, shown]
      rfl
  | delete o atom =>
    obtain ⟨there, live⟩ := (Bool.and_eq_true _ _).mp allowed
    obtain ⟨p, d, at_o, shown⟩ := S.shown there
    obtain ⟨rt', deleted, C⟩ := S.delete (Nat.le_of_lt lt) at_o (by simpa using live) shown
    have answer : rt.store.exec (.delete o atom) =
        ((d.delete atom).1, rt.store.put o (some (d.delete atom).2)) := by
      rw [Store.exec, shown]
      rfl
    rw [answer]
    exact ⟨rt', deleted, C.sound.mono (Nat.le_succ k), C.store⟩
  | setPrototype o proto =>
    obtain ⟨p, d, at_o, shown⟩ := S.shown allowed
    obtain ⟨rt', changed, C⟩ := S.setPrototype at_o shown proto
    refine ⟨rt', ?_, C.sound.mono (Nat.le_succ k), ?_⟩
    · rw [Shapes.exec, changed]
      rfl
    · rw [C.store, Store.exec, shown]
      rfl

theorem sound_init : Sound 0 (Runtime.init : Runtime V) where
  shared :=
    { fresh := fun _ _ => rfl
      ok := nofun
      there := nofun
      counted := nofun
      own := nofun
      table := fun b s => by simp [Runtime.init]
      once := fun _ => List.nodup_nil
      hash := nofun }
  unused := fun _ _ => rfl
  paired := nofun
  canonical := nofun

theorem Sound.execAll (S : Sound k rt) (ops : List (Op V)) (short : k + ops.length ≤ 2 ^ 26) :
    ∃ rt', execAll rt ops = some ((rt.store.execAll ops).1, rt') ∧
      Sound (k + ops.length) rt' ∧ rt'.store = (rt.store.execAll ops).2 := by
  induction ops generalizing k rt with
  | nil => exact ⟨rt, rfl, S, rfl⟩
  | cons op ops ih =>
    rw [List.length_cons] at short
    have later : k + (ops.length + 1) = k + 1 + ops.length := by omega
    rw [Shapes.execAll, Store.execAll, S.allowed_iff, List.length_cons, later]
    by_cases allowed : op.allowed (fun o => (rt.objects o).isSome) = true
    · obtain ⟨rt₁, done, S₁, same⟩ := S.exec (by omega) op allowed
      obtain ⟨rt₂, rest, S₂, same₂⟩ := ih S₁ (by omega)
      rw [if_pos allowed, if_pos allowed, done, Option.bind_some]
      simp only [rest, Option.map_some, same] at same₂ ⊢
      exact ⟨rt₂, rfl, S₂, same₂⟩
    · rw [if_neg allowed, if_neg allowed]
      exact ih (S.mono (Nat.le_succ k)) (by omega)

theorem execAll_sound (ops : List (Op V)) (short : ops.length < 2 ^ 26) :
    ∃ rt, execAll Runtime.init ops = some ((Store.init.execAll ops).1, rt) ∧
      Sound ops.length rt ∧ rt.store = (Store.init.execAll ops).2 := by
  have start : (Runtime.init : Runtime V).store = Store.init := rfl
  have runs := sound_init.execAll ops (by omega)
  rwa [start, Nat.zero_add] at runs

theorem getPrototype_eq (rt : Runtime V) (o : Nat) :
    getPrototype rt o = (rt.view o).map Dict.proto := by
  rw [getPrototype, Runtime.view]
  cases rt.objects o with
  | none => rfl
  | some p =>
    rw [Option.bind_some, Option.bind_some, Option.map_map]
    rfl

theorem Sound.ownKeys (S : Sound k rt) (o : Nat) :
    ownKeys rt o = (rt.view o).map fun d => d.fields.map Prod.fst := by
  cases at_o : rt.objects o with
  | none => simp [Shapes.ownKeys, Runtime.view, at_o]
  | some p =>
    obtain ⟨sh, at_s, -, length⟩ := S.shape_of at_o
    rw [Runtime.view_eq at_o at_s, Shapes.ownKeys, at_o, Option.bind_some, at_s, Option.map_some,
      Option.map_some, dictOf, Shape.layout, keys_fieldsOf (length.trans (length_names _).symm), names,
      List.map_map]
    rfl

theorem Sound.getOwnProperty (S : Sound k rt) (o : Nat) {atom : Atom} (live : atom ≠ atomNull) :
    getOwnProperty rt o atom = (rt.view o).bind fun d => find d.fields atom := by
  cases at_o : rt.objects o with
  | none => simp [Shapes.getOwnProperty, Runtime.view, at_o]
  | some p =>
    obtain ⟨sh, at_s, ok, length⟩ := S.shape_of at_o
    rw [Runtime.view_eq at_o at_s, Shapes.getOwnProperty, at_o, Option.bind_some, at_s,
      Option.bind_some, Option.bind_some, dictOf, Shape.layout]
    rcases findProperty_cases ok live length with ⟨i, before, pr, v, F, found⟩ | ⟨search, -, found⟩
    · rw [F.search, found, Option.bind_some, F.prop, Option.bind_some, F.value, Option.map_some]
    · rw [search, found, Option.bind_none]

/-- Whatever is called, every object answers and shows what it would if it shared nothing. -/
theorem sharing_invisible (ops : List (Op V)) (short : ops.length < 2 ^ 26) :
    ∃ rt, execAll Runtime.init ops = some ((Store.init.execAll ops).1, rt) ∧
      ∀ o, getPrototype rt o = ((Store.init.execAll ops).2.objects o).map Dict.proto ∧
        ownKeys rt o =
          ((Store.init.execAll ops).2.objects o).map (fun d => d.fields.map Prod.fst) ∧
        ∀ atom, atom ≠ atomNull → getOwnProperty rt o atom =
          ((Store.init.execAll ops).2.objects o).bind fun d => find d.fields atom := by
  obtain ⟨rt, runs, S, same⟩ := execAll_sound ops short
  refine ⟨rt, runs, fun o => ?_⟩
  rw [← same]
  exact ⟨getPrototype_eq rt o, S.ownKeys o, fun atom live => S.getOwnProperty o live⟩

/-- Two objects share a shape, and one of them changes. -/
theorem sharing_invisible_pair :
    ∃ rt, execAll Runtime.init
        [.create none, .create none, .set 0 5 true, .set 1 5 false, .delete 1 5] =
          some ((Store.init.execAll
            [.create none, .create none, .set 0 5 true, .set 1 5 false, .delete 1 5]).1, rt) ∧
      ∀ o, getPrototype rt o = ((Store.init.execAll
          [.create none, .create none, .set 0 5 true, .set 1 5 false, .delete 1 5]).2.objects o).map
            Dict.proto ∧
        ownKeys rt o = ((Store.init.execAll
          [.create none, .create none, .set 0 5 true, .set 1 5 false, .delete 1 5]).2.objects o).map
            (fun d => d.fields.map Prod.fst) ∧
        ∀ atom, atom ≠ atomNull → getOwnProperty rt o atom = ((Store.init.execAll
          [.create none, .create none, .set 0 5 true, .set 1 5 false, .delete 1 5]).2.objects o).bind
            fun d => find d.fields atom :=
  sharing_invisible [.create none, .create none, .set 0 5 true, .set 1 5 false, .delete 1 5]
    (by decide)

theorem count_heldBy (objects : Nat → Option (JSObject V)) (os : List Nat) (s : Nat) :
    (heldBy (holding objects) os).count s =
      os.countP fun o => (objects o).map JSObject.shape == some s := by
  induction os with
  | nil => rfl
  | cons o os ih =>
    rw [heldBy_cons, List.count_append, List.countP_cons, ih, Nat.add_comm, holding]
    congr 1
    cases (objects o).map JSObject.shape with
    | none => rfl
    | some t => simp [List.count_singleton]

/-- After every run each shape counts the objects that have it, and there is one at least; the
table has the hashed shapes, each once in its bucket; and of two objects with hashed shapes, those
with the same prototype and the same properties in the same order have the same shape. -/
theorem sharing_exact (ops : List (Op V)) (short : ops.length < 2 ^ 26) :
    ∃ answers rt, execAll Runtime.init ops = some (answers, rt) ∧
      (∀ s sh, rt.shapes s = some sh → 0 < sh.refCount ∧ sh.refCount =
        (List.range rt.nextObject).countP fun o => (rt.objects o).map JSObject.shape == some s) ∧
      (∀ b, (rt.shapeHash b).Nodup ∧ ∀ s, s ∈ rt.shapeHash b ↔
        ∃ sh, rt.shapes s = some sh ∧ sh.isHashed = true ∧
          getShapeHash sh.hash rt.shapeHashBits = b) ∧
      ∀ o o' p p' sh sh', rt.objects o = some p → rt.objects o' = some p' →
        rt.shapes p.shape = some sh → rt.shapes p'.shape = some sh' → sh.isHashed = true →
        sh'.isHashed = true →
        (p.shape = p'.shape ↔ sh.proto = sh'.proto ∧ names sh.prop = names sh'.prop) := by
  obtain ⟨rt, runs, S, -⟩ := execAll_sound ops short
  refine ⟨_, rt, runs, ?_, fun b => ⟨S.shared.once b, S.shared.table b⟩, ?_⟩
  · intro s sh at_s
    obtain ⟨counted, positive⟩ := S.shared.counted s sh at_s
    exact ⟨positive, counted.trans (count_heldBy rt.objects _ s)⟩
  · intro o o' p p' sh sh' _ _ at_s at_s' hashed hashed'
    constructor
    · intro same
      rw [same] at at_s
      obtain rfl := Option.some.inj (at_s.symm.trans at_s')
      exact ⟨rfl, rfl⟩
    · rintro ⟨proto, same⟩
      exact S.canonical _ _ sh sh' at_s at_s' hashed hashed' (Prod.ext proto same)

theorem sharing_exact_pair :
    ∃ answers rt, execAll Runtime.init [.create none, .create none, .set 0 5 true] =
        some (answers, rt) ∧
      (∀ s sh, rt.shapes s = some sh → 0 < sh.refCount ∧ sh.refCount =
        (List.range rt.nextObject).countP fun o => (rt.objects o).map JSObject.shape == some s) ∧
      (∀ b, (rt.shapeHash b).Nodup ∧ ∀ s, s ∈ rt.shapeHash b ↔
        ∃ sh, rt.shapes s = some sh ∧ sh.isHashed = true ∧
          getShapeHash sh.hash rt.shapeHashBits = b) ∧
      ∀ o o' p p' sh sh', rt.objects o = some p → rt.objects o' = some p' →
        rt.shapes p.shape = some sh → rt.shapes p'.shape = some sh' → sh.isHashed = true →
        sh'.isHashed = true →
        (p.shape = p'.shape ↔ sh.proto = sh'.proto ∧ names sh.prop = names sh'.prop) :=
  sharing_exact [.create none, .create none, .set 0 5 true] (by decide)

-- the second object finds the shape that the first one has made, and takes a copy to delete from
example : (execAll (V := Bool) .init [.create none, .create none, .set 0 5 true, .set 1 5 false]).map
    (fun t => ((t.2.objects 0).map JSObject.shape, (t.2.objects 1).map JSObject.shape)) =
      some (some 1, some 1) := by decide

example : (execAll (V := Bool) .init
    [.create none, .create none, .set 0 5 true, .set 1 5 false, .delete 1 5]).map
    (fun t => ((t.2.objects 0).map JSObject.shape, (t.2.objects 1).map JSObject.shape,
      getOwnProperty t.2 0 5)) = some (some 1, some 2, some (7, true)) := by decide

end Shapes
