import Goqjs.ReferenceGraph
import Goqjs.ShapeTables

/-!
# Shapes in common

Every shape counts who holds it. One that has several holders, or that the runtime can find, is not
changed: it is copied first, or taken out of the table. What the holders of the other shapes have
stays as it was.
-/

namespace Shapes

variable {V : Type} {k k' s : Nat} {held held' : List Nat} {rt rt' : Runtime V} {sh sh' : Shape}

@[simp] theorem putShape_self (rt : Runtime V) (s : Nat) (x : Option Shape) :
    (rt.putShape s x).shapes s = x := by
  simp only [Runtime.putShape, Function.update_self]

theorem putShape_ne (rt : Runtime V) {s t : Nat} (ne : t ≠ s) (x : Option Shape) :
    (rt.putShape s x).shapes t = rt.shapes t := by
  simp only [Runtime.putShape, Function.update_of_ne ne]

/-- The hash of a shape with this prototype and these properties. -/
def hashOf (proto : Option Nat) (ns : List (Atom × Fin 64)) : UInt32 :=
  ns.foldl (fun h x => shapeHash (shapeHash h x.1) (.ofNat x.2.val)) (shapeInitialHash proto)

/-- What holders of a shape have in common. -/
def Shape.layout (sh : Shape) : Option Nat × List (Atom × Fin 64) := (sh.proto, names sh.prop)

/-- The shapes of a runtime, each held as often as it stands in a list. -/
structure Shared (k : Nat) (held : List Nat) (rt : Runtime V) : Prop where
  fresh : ∀ s, rt.nextShape ≤ s → rt.shapes s = none
  ok : ∀ s sh, rt.shapes s = some sh → ShapeOk k sh
  there : ∀ s ∈ held, ∃ sh, rt.shapes s = some sh
  counted : ∀ s sh, rt.shapes s = some sh → sh.refCount = held.count s ∧ 0 < sh.refCount
  own : ∀ s sh, rt.shapes s = some sh → sh.isHashed = false → sh.refCount = 1
  table : ∀ b s, s ∈ rt.shapeHash b ↔ ∃ sh, rt.shapes s = some sh ∧ sh.isHashed = true ∧
    getShapeHash sh.hash rt.shapeHashBits = b
  once : ∀ b, (rt.shapeHash b).Nodup
  hash : ∀ s sh, rt.shapes s = some sh → sh.isHashed = true →
    sh.hash = hashOf sh.proto (names sh.prop)

/-- Buckets in which one number is where it should be, and the others are where they were. -/
structure Moved (buckets buckets' : Nat → List Nat) (s : Nat) (home : Nat → Prop) : Prop where
  once : ∀ b, (buckets' b).Nodup
  others : ∀ b t, t ≠ s → (t ∈ buckets' b ↔ t ∈ buckets b)
  here : ∀ b, s ∈ buckets' b ↔ home b

/-- A runtime in which one shape is written, and the table and the holders with it. -/
structure Written (k : Nat) (held held' : List Nat) (s : Nat) (sh : Shape) (rt rt' : Runtime V) :
    Prop where
  shapes : rt'.shapes = Function.update rt.shapes s (some sh)
  bits : rt'.shapeHashBits = rt.shapeHashBits
  next : rt.nextShape ≤ rt'.nextShape
  lt : s < rt'.nextShape
  ok : ShapeOk k sh
  others : ∀ t, t ≠ s → held'.count t = held.count t
  counted : sh.refCount = held'.count s
  positive : 0 < sh.refCount
  own : sh.isHashed = false → sh.refCount = 1
  moved : Moved rt.shapeHash rt'.shapeHash s fun b =>
    sh.isHashed = true ∧ getShapeHash sh.hash rt.shapeHashBits = b
  hash : sh.isHashed = true → sh.hash = hashOf sh.proto (names sh.prop)

theorem ShapeOk.mono (ok : ShapeOk k sh) (le : k ≤ k') : ShapeOk k' sh :=
  { ok with short := Nat.le_trans ok.short le }

/-- The properties are in order whatever stands in the other fields. -/
theorem ShapeOk.header (ok : ShapeOk k sh) (refCount : Nat) (isHashed : Bool) (hash : UInt32)
    (proto : Option Nat) :
    ShapeOk k { sh with refCount := refCount, isHashed := isHashed, hash := hash, proto := proto } :=
  ⟨ok.heads, ok.linked, ok.distinct, ok.deleted, ok.fits, ok.short⟩

theorem Written.at_ne (W : Written k' held held' s sh rt rt') {t : Nat} (ne : t ≠ s) :
    rt'.shapes t = rt.shapes t := by
  rw [W.shapes, Function.update_of_ne ne]

theorem Written.at_self (W : Written k' held held' s sh rt rt') : rt'.shapes s = some sh := by
  rw [W.shapes, Function.update_self]

/-- The shapes stay in order when one is written. -/
theorem Shared.write (H : Shared k held rt) (le : k ≤ k') (W : Written k' held held' s sh rt rt') :
    Shared k' held' rt' := by
  have old : ∀ {t sh'}, t ≠ s → rt'.shapes t = some sh' → rt.shapes t = some sh' := by
    intro t sh' ne at_t
    rwa [W.at_ne ne] at at_t
  have new : ∀ {sh'}, rt'.shapes s = some sh' → sh' = sh := by
    intro sh' at_s
    rw [W.at_self] at at_s
    exact (Option.some.inj at_s).symm
  constructor
  · intro t le
    have lt := W.lt
    have next := W.next
    rw [W.at_ne (by omega)]
    exact H.fresh t (by omega)
  · intro t sh' at_t
    by_cases same : t = s
    · subst same
      exact new at_t ▸ W.ok
    · exact (H.ok t sh' (old same at_t)).mono le
  · intro t mem
    by_cases same : t = s
    · exact ⟨sh, same ▸ W.at_self⟩
    · rw [W.at_ne same]
      apply H.there
      rw [← List.count_pos_iff, ← W.others t same, List.count_pos_iff]
      exact mem
  · intro t sh' at_t
    by_cases same : t = s
    · subst same
      exact new at_t ▸ ⟨W.counted, W.positive⟩
    · rw [W.others t same]
      exact H.counted t sh' (old same at_t)
  · intro t sh' at_t
    by_cases same : t = s
    · subst same
      exact new at_t ▸ W.own
    · exact H.own t sh' (old same at_t)
  · intro b t
    by_cases same : t = s
    · subst same
      rw [W.moved.here, W.bits, W.at_self]
      simp
    · rw [W.moved.others b t same, W.bits, W.at_ne same]
      exact H.table b t
  · exact W.moved.once
  · intro t sh' at_t
    by_cases same : t = s
    · subst same
      exact new at_t ▸ W.hash
    · exact H.hash t sh' (old same at_t)

theorem Shared.mono (H : Shared k held rt) (le : k ≤ k') : Shared k' held rt :=
  { H with ok := fun s sh at_s => (H.ok s sh at_s).mono le }

theorem Shared.perm (H : Shared k held rt) (same : held.Perm held') : Shared k held' rt :=
  { H with
    there := fun s mem => H.there s (same.mem_iff.mpr mem)
    counted := fun s sh at_s => same.count_eq s ▸ H.counted s sh at_s }

/-- The objects are of no concern here. -/
theorem Shared.objects (H : Shared k held rt) (objects : Nat → Option (JSObject V)) (next : Nat) :
    Shared k held { rt with objects := objects, nextObject := next } :=
  ⟨H.fresh, H.ok, H.there, H.counted, H.own, H.table, H.once, H.hash⟩

theorem Shared.lt_next (H : Shared k held rt) (at_s : rt.shapes s = some sh) : s < rt.nextShape := by
  by_contra outside
  rw [H.fresh s (by omega)] at at_s
  cases at_s

/-- A shape that is not hashed is in no bucket. -/
theorem Shared.not_linked (H : Shared k held rt)
    (off : ∀ sh, rt.shapes s = some sh → sh.isHashed = false) (b : Nat) : s ∉ rt.shapeHash b := by
  intro mem
  obtain ⟨sh, at_s, hashed, -⟩ := (H.table b s).mp mem
  rw [off sh at_s] at hashed
  cases hashed

variable {buckets : Nat → List Nat} {home : Nat → Prop}

theorem Moved.refl (once : ∀ b, (buckets b).Nodup) (here : ∀ b, s ∈ buckets b ↔ home b) :
    Moved buckets buckets s home :=
  ⟨once, fun _ _ _ => Iff.rfl, here⟩

theorem moved_in (once : ∀ b, (buckets b).Nodup) (absent : ∀ b, s ∉ buckets b) (h : Nat) :
    Moved buckets (Function.update buckets h (s :: buckets h)) s (h = ·) := by
  constructor
  · intro b
    by_cases same : b = h
    · subst same
      rw [Function.update_self]
      exact List.nodup_cons.mpr ⟨absent b, once b⟩
    · rw [Function.update_of_ne same]
      exact once b
  · intro b t ne
    by_cases same : b = h
    · subst same
      simp [ne]
    · rw [Function.update_of_ne same]
  · intro b
    by_cases same : b = h
    · subst same
      simp
    · rw [Function.update_of_ne same]
      exact ⟨fun mem => absurd mem (absent b), fun eq => absurd eq.symm same⟩

theorem moved_out (once : ∀ b, (buckets b).Nodup) {h : Nat}
    (only : ∀ b, s ∈ buckets b → b = h) :
    Moved buckets (Function.update buckets h ((buckets h).erase s)) s fun _ => False := by
  constructor
  · intro b
    by_cases same : b = h
    · subst same
      rw [Function.update_self]
      exact (once b).erase s
    · rw [Function.update_of_ne same]
      exact once b
  · intro b t ne
    by_cases same : b = h
    · subst same
      rw [Function.update_self]
      exact List.mem_erase_of_ne ne
    · rw [Function.update_of_ne same]
  · intro b
    by_cases same : b = h
    · subst same
      rw [Function.update_self]
      exact iff_false_intro (once b).not_mem_erase
    · rw [Function.update_of_ne same]
      exact iff_false_intro fun mem => same (only b mem)

/-- A hashed shape is in its bucket and in no other one. -/
theorem Shared.linked (H : Shared k held rt) (at_s : rt.shapes s = some sh)
    (hashed : sh.isHashed = true) (b : Nat) :
    s ∈ rt.shapeHash b ↔ getShapeHash sh.hash rt.shapeHashBits = b := by
  rw [H.table]
  constructor
  · rintro ⟨sh', at_s', -, eq⟩
    obtain rfl := Option.some.inj (at_s.symm.trans at_s')
    exact eq
  · exact fun eq => ⟨sh, at_s, hashed, eq⟩

/-- The table as it is when a shape with the same hash is written. -/
theorem Shared.stays (H : Shared k held rt) (at_s : rt.shapes s = some sh) (sh' : Shape)
    (hashed : sh'.isHashed = sh.isHashed) (hash : sh'.hash = sh.hash) :
    Moved rt.shapeHash rt.shapeHash s fun b =>
      sh'.isHashed = true ∧ getShapeHash sh'.hash rt.shapeHashBits = b := by
  apply Moved.refl H.once
  intro b
  rw [H.table, at_s, hashed, hash]
  simp

/-- `js_shape_hash_unlink` finds the shape. -/
theorem Shared.unlink (H : Shared k held rt) (at_s : rt.shapes s = some sh)
    (hashed : sh.isHashed = true) :
    ∃ rt', jsShapeHashUnlink rt s sh.hash = some rt' ∧
      Moved rt.shapeHash rt'.shapeHash s (fun _ => False) ∧
      rt' = { rt with shapeHash := rt'.shapeHash, shapeHashCount := rt'.shapeHashCount } := by
  have mem := (H.linked at_s hashed _).mpr rfl
  refine ⟨_, if_pos mem, ?_, rfl⟩
  exact moved_out H.once fun b memb => ((H.linked at_s hashed b).mp memb).symm

/-- One more holder of a shape. -/
theorem Shared.dup (H : Shared k held rt) (at_s : rt.shapes s = some sh)
    (hashed : sh.isHashed = true) :
    Shared k (s :: held) (rt.putShape s (some { sh with refCount := sh.refCount + 1 })) := by
  apply H.write (Nat.le_refl k)
  show Written k held (s :: held) s { sh with refCount := sh.refCount + 1 } rt _
  have counted := H.counted s sh at_s
  constructor
  case shapes => rfl
  case bits => rfl
  case next => exact Nat.le_refl _
  case lt => exact H.lt_next at_s
  case ok => exact (H.ok s sh at_s).header ..
  case others => exact fun t ne => List.count_cons_of_ne ne.symm
  case counted =>
    rw [List.count_cons_self, counted.1]
  case positive => exact Nat.succ_pos _
  case own => exact fun off => absurd hashed (by simpa using off)
  case moved => exact H.stays at_s { sh with refCount := sh.refCount + 1 } rfl rfl
  case hash => exact H.hash s sh at_s

/-- What the holders of the shapes on a list have in common stays the same. -/
def SameLayout (held : List Nat) (rt rt' : Runtime V) : Prop :=
  ∀ t ∈ held, (rt'.shapes t).map Shape.layout = (rt.shapes t).map Shape.layout

theorem SameLayout.put (ne : s ∉ held) (at_ne : ∀ t, t ≠ s → rt'.shapes t = rt.shapes t) :
    SameLayout held rt rt' := by
  intro t mem
  rw [at_ne t fun same => ne (same ▸ mem)]

theorem SameLayout.write (held : List Nat) (at_s : rt.shapes s = some sh)
    (same : sh'.layout = sh.layout) : SameLayout held rt (rt.putShape s (some sh')) := by
  intro t _
  by_cases here : t = s
  · subst here
    rw [putShape_self, at_s, Option.map_some, Option.map_some, same]
  · rw [putShape_ne _ here]

theorem SameLayout.trans {rt'' : Runtime V} (h : SameLayout held rt rt')
    (h' : SameLayout held rt' rt'') : SameLayout held rt rt'' :=
  fun t mem => (h' t mem).trans (h t mem)

/-- Every hashed shape was there, with the same layout. -/
def NoneNew (rt rt' : Runtime V) : Prop :=
  ∀ t sh, rt'.shapes t = some sh → sh.isHashed = true →
    ∃ sh', rt.shapes t = some sh' ∧ sh'.isHashed = true ∧ sh'.layout = sh.layout

theorem NoneNew.of_eq (same : ∀ t sh, rt'.shapes t = some sh → rt.shapes t = some sh) :
    NoneNew rt rt' :=
  fun t sh at_t on => ⟨sh, same t sh at_t, on, rfl⟩

/-- A shape is written with the layout that it had, or so that it is not found. -/
theorem NoneNew.put (at_s : rt.shapes s = some sh) (same : sh'.isHashed = true →
    sh.isHashed = true ∧ sh.layout = sh'.layout) : NoneNew rt (rt.putShape s (some sh')) := by
  intro t sh'' at_t on
  by_cases here : t = s
  · subst here
    rw [putShape_self] at at_t
    obtain rfl := Option.some.inj at_t
    exact ⟨sh, at_s, same on⟩
  · rw [putShape_ne _ here] at at_t
    exact ⟨sh'', at_t, on, rfl⟩

theorem NoneNew.drop (rt : Runtime V) (s : Nat) : NoneNew rt (rt.putShape s none) := by
  apply NoneNew.of_eq
  intro t sh at_t
  by_cases here : t = s
  · subst here
    rw [putShape_self] at at_t
    cases at_t
  · rwa [putShape_ne _ here] at at_t

/-- `js_free_shape` of a shape that others hold, too. -/
theorem jsFreeShape_shared (at_s : rt.shapes s = some sh) (more : sh.refCount ≠ 1)
    (positive : 0 < sh.refCount) :
    jsFreeShape rt s = some (rt.putShape s (some { sh with refCount := sh.refCount - 1 })) := by
  rw [jsFreeShape, at_s, Option.bind_some, if_neg (by omega), if_neg more]

theorem Shared.release_shared (H : Shared k (s :: held) rt) (at_s : rt.shapes s = some sh)
    (more : sh.refCount ≠ 1) :
    Shared k held (rt.putShape s (some { sh with refCount := sh.refCount - 1 })) := by
  have counted := H.counted s sh at_s
  apply H.write (Nat.le_refl k)
  show Written k (s :: held) held s { sh with refCount := sh.refCount - 1 } rt _
  constructor
  case shapes => rfl
  case bits => rfl
  case next => exact Nat.le_refl _
  case lt => exact H.lt_next at_s
  case ok => exact (H.ok s sh at_s).header ..
  case others => exact fun t ne => (List.count_cons_of_ne ne.symm).symm
  case counted =>
    rw [List.count_cons_self] at counted
    simp only
    omega
  case positive =>
    simp only
    omega
  case own => exact fun off => absurd (H.own s sh at_s off) more
  case moved => exact H.stays at_s { sh with refCount := sh.refCount - 1 } rfl rfl
  case hash => exact H.hash s sh at_s

/-- A shape without holders goes. -/
theorem Shared.drop (H : Shared k (s :: held) rt) (alone : s ∉ held)
    (shapes : rt'.shapes = Function.update rt.shapes s none)
    (bits : rt'.shapeHashBits = rt.shapeHashBits) (next : rt'.nextShape = rt.nextShape)
    (moved : Moved rt.shapeHash rt'.shapeHash s fun _ => False) : Shared k held rt' := by
  have gone : rt'.shapes s = none := by rw [shapes, Function.update_self]
  have at_ne : ∀ {t}, t ≠ s → rt'.shapes t = rt.shapes t := by
    intro t ne
    rw [shapes, Function.update_of_ne ne]
  have old : ∀ {t sh}, rt'.shapes t = some sh → t ≠ s ∧ rt.shapes t = some sh := by
    intro t sh at_t
    have ne : t ≠ s := by
      rintro rfl
      rw [gone] at at_t
      cases at_t
    exact ⟨ne, at_ne ne ▸ at_t⟩
  constructor
  · intro t le
    by_cases same : t = s
    · exact same ▸ gone
    · rw [at_ne same]
      exact H.fresh t (next ▸ le)
  · exact fun t sh at_t => H.ok t sh (old at_t).2
  · intro t mem
    rw [at_ne fun same => alone (same ▸ mem)]
    exact H.there t (List.mem_cons_of_mem s mem)
  · intro t sh at_t
    have counted := H.counted t sh (old at_t).2
    rwa [List.count_cons_of_ne (old at_t).1.symm] at counted
  · exact fun t sh at_t => H.own t sh (old at_t).2
  · intro b t
    by_cases same : t = s
    · subst same
      rw [moved.here, gone]
      simp
    · rw [moved.others b t same, bits, at_ne same]
      exact H.table b t
  · exact moved.once
  · exact fun t sh at_t => H.hash t sh (old at_t).2

/-- `js_free_shape`. -/
theorem Shared.release (H : Shared k (s :: held) rt) :
    ∃ rt', jsFreeShape rt s = some rt' ∧ Shared k held rt' ∧ SameLayout held rt rt' ∧
      NoneNew rt rt' ∧ rt'.objects = rt.objects ∧ rt'.nextObject = rt.nextObject := by
  obtain ⟨sh, at_s⟩ := H.there s List.mem_cons_self
  have counted := H.counted s sh at_s
  by_cases last : sh.refCount = 1
  · have alone : s ∉ held := by
      rw [List.count_cons_self] at counted
      apply List.count_eq_zero.mp
      omega
    cases hashed : sh.isHashed with
    | false =>
      refine ⟨rt.putShape s none, ?_, ?_, .put alone fun t ne => putShape_ne rt ne none, .drop rt s,
        rfl, rfl⟩
      · rw [jsFreeShape, at_s, Option.bind_some, if_neg (by omega), if_pos last, hashed,
          if_neg Bool.false_ne_true]
      · refine H.drop alone rfl rfl rfl (.refl H.once ?_)
        intro b
        apply iff_false_intro
        apply H.not_linked
        intro sh' at_s'
        rwa [← Option.some.inj (at_s.symm.trans at_s')]
    | true =>
      obtain ⟨rt₁, unlink, moved, eq⟩ := H.unlink at_s hashed
      refine ⟨rt₁.putShape s none, ?_, ?_, ?_, ?_, ?_⟩
      · rw [jsFreeShape, at_s, Option.bind_some, if_neg (by omega), if_pos last, hashed, if_pos rfl,
          unlink, Option.map_some]
      · rw [eq]
        exact H.drop alone rfl rfl rfl moved
      · rw [eq]
        exact .put alone fun t ne => putShape_ne _ ne none
      · rw [eq]
        exact NoneNew.drop rt s
      · rw [eq]
        exact ⟨rfl, rfl⟩
  · refine ⟨_, jsFreeShape_shared at_s last counted.2, H.release_shared at_s last,
      .write held at_s rfl, .put at_s fun on => ⟨on, rfl⟩, rfl, rfl⟩

/-- A new shape that is not hashed. -/
theorem Shared.create (H : Shared k held rt) (ok : ShapeOk k sh) (one : sh.refCount = 1)
    (off : sh.isHashed = false) :
    Shared k (rt.nextShape :: held)
      { rt.putShape rt.nextShape (some sh) with nextShape := rt.nextShape + 1 } := by
  have absent := H.fresh rt.nextShape (Nat.le_refl _)
  apply H.write (Nat.le_refl k)
  show Written k held (rt.nextShape :: held) rt.nextShape sh rt _
  have unheld : rt.nextShape ∉ held := by
    intro mem
    obtain ⟨sh', at_n⟩ := H.there _ mem
    rw [absent] at at_n
    cases at_n
  constructor
  case shapes => rfl
  case bits => rfl
  case next => exact Nat.le_succ _
  case lt => exact Nat.lt_succ_self _
  case ok => exact ok
  case others => exact fun t ne => List.count_cons_of_ne ne.symm
  case counted => rw [List.count_cons_self, List.count_eq_zero.mpr unheld, one]
  case positive => omega
  case own => exact fun _ => one
  case moved =>
    apply Moved.refl H.once
    intro b
    rw [H.table, absent, off]
    simp
  case hash => simp [off]

/-- A shape that is its holder's alone. -/
theorem Shared.alone (H : Shared k (s :: held) rt) (at_s : rt.shapes s = some sh)
    (one : sh.refCount = 1) : s ∉ held := by
  have counted := H.counted s sh at_s
  rw [List.count_cons_self] at counted
  apply List.count_eq_zero.mp
  omega

/-- A shape is written for its holders. -/
theorem Shared.replace (H : Shared k held rt) (le : k ≤ k') (at_s : rt.shapes s = some sh)
    (shapes : rt'.shapes = Function.update rt.shapes s (some sh'))
    (bits : rt'.shapeHashBits = rt.shapeHashBits) (next : rt'.nextShape = rt.nextShape)
    (ok : ShapeOk k' sh') (count : sh'.refCount = sh.refCount)
    (own : sh'.isHashed = false → sh'.refCount = 1)
    (moved : Moved rt.shapeHash rt'.shapeHash s fun b =>
      sh'.isHashed = true ∧ getShapeHash sh'.hash rt.shapeHashBits = b)
    (hash : sh'.isHashed = true → sh'.hash = hashOf sh'.proto (names sh'.prop)) :
    Shared k' held rt' := by
  have counted := H.counted s sh at_s
  exact H.write le {
    shapes := shapes
    bits := bits
    next := Nat.le_of_eq next.symm
    lt := next ▸ H.lt_next at_s
    ok := ok
    others := fun _ _ => rfl
    counted := count.trans counted.1
    positive := count ▸ counted.2
    own := own
    moved := moved
    hash := hash }

/-- A shape that is not hashed is changed for its only holder. -/
theorem Shared.rewrite (H : Shared k held rt) (le : k ≤ k') (at_s : rt.shapes s = some sh)
    (off : sh.isHashed = false) (ok : ShapeOk k' sh') (count : sh'.refCount = sh.refCount)
    (off' : sh'.isHashed = false) : Shared k' held (rt.putShape s (some sh')) := by
  refine H.replace le at_s rfl rfl rfl ok count (fun _ => count.trans (H.own s sh at_s off))
    (.refl H.once ?_) (by simp [off'])
  intro b
  rw [H.table, at_s, off']
  simp [off]

/-- A shape comes into the table. -/
theorem Shared.link (H : Shared k held rt) (at_s : rt.shapes s = some sh)
    (off : sh.isHashed = false) :
    Shared k held
      (jsShapeHashLink
        (rt.putShape s
          (some { sh with hash := hashOf sh.proto (names sh.prop), isHashed := true }))
        s (hashOf sh.proto (names sh.prop))) := by
  have absent := H.not_linked (s := s) fun sh' at_s' => by
    rwa [← Option.some.inj (at_s.symm.trans at_s')]
  have moved := moved_in H.once absent
    (getShapeHash (hashOf sh.proto (names sh.prop)) rt.shapeHashBits)
  refine H.replace (Nat.le_refl k) at_s rfl rfl rfl ((H.ok s sh at_s).header ..) rfl ?_ ?_
    fun _ => rfl
  · simp
  · exact ⟨moved.once, moved.others, fun b => (moved.here b).trans (by simp)⟩

/-- A new shape that is hashed. -/
theorem Shared.create_linked (H : Shared k held rt) (ok : ShapeOk k sh) (one : sh.refCount = 1)
    (hashed : sh.isHashed = true) (hash : sh.hash = hashOf sh.proto (names sh.prop)) :
    Shared k (rt.nextShape :: held)
      (jsShapeHashLink
        { rt.putShape rt.nextShape (some sh) with nextShape := rt.nextShape + 1 }
        rt.nextShape sh.hash) := by
  have created := H.create (ok.header 1 false 0 sh.proto) rfl rfl
  have linked := created.link (putShape_self ..) rfl
  have twice : ∀ x y, Runtime.putShape
      { rt.putShape rt.nextShape x with nextShape := rt.nextShape + 1 } rt.nextShape y =
        { rt.putShape rt.nextShape y with nextShape := rt.nextShape + 1 } := by
    intro x y
    simp only [Runtime.putShape, Function.update_idem]
  rw [twice] at linked
  simpa only [← hash, ← one, ← hashed] using linked

/-- A shape is taken out of the table by its only holder. -/
theorem Shared.unhash (H : Shared k held rt) (at_s : rt.shapes s = some sh)
    (one : sh.refCount = 1) (hashed : sh.isHashed = true) :
    ∃ rt₁, jsShapeHashUnlink rt s sh.hash = some rt₁ ∧
      rt₁ = { rt with shapeHash := rt₁.shapeHash, shapeHashCount := rt₁.shapeHashCount } ∧
      Shared k held (rt₁.putShape s (some { sh with isHashed := false })) := by
  obtain ⟨rt₁, unlink, moved, eq⟩ := H.unlink at_s hashed
  refine ⟨rt₁, unlink, eq, ?_⟩
  rw [eq]
  refine H.replace (Nat.le_refl k) at_s rfl rfl rfl ((H.ok s sh at_s).header ..) rfl (fun _ => one)
    ?_ (by simp)
  exact ⟨moved.once, moved.others, fun b => (moved.here b).trans (by simp)⟩

theorem putShape_putShape (rt : Runtime V) (s : Nat) (x y : Option Shape) :
    (rt.putShape s x).putShape s y = rt.putShape s y := by
  simp only [Runtime.putShape, Function.update_idem]

theorem SameLayout.refl (held : List Nat) (rt : Runtime V) : SameLayout held rt rt := fun _ _ => rfl

/-- A holder has given up a shape that others hold, too, and has a copy of it. -/
structure Cloned (k : Nat) (held : List Nat) (rt : Runtime V) (s : Nat) (sh : Shape)
    (isHashed : Bool) (rt₁ : Runtime V) : Prop where
  shared : Shared k (rt.nextShape :: held) rt₁
  at_copy : rt₁.shapes rt.nextShape = some { sh with refCount := 1, isHashed := isHashed }
  old : ∀ t sh', t ≠ rt.nextShape → rt₁.shapes t = some sh' →
    ∃ sh'', rt.shapes t = some sh'' ∧ sh''.isHashed = sh'.isHashed ∧ sh''.layout = sh'.layout
  objects : rt₁.objects = rt.objects
  next : rt₁.nextObject = rt.nextObject

theorem Shared.ne_next (H : Shared k held rt) (mem : s ∈ held) : s ≠ rt.nextShape := by
  obtain ⟨sh, at_s⟩ := H.there s mem
  exact Nat.ne_of_lt (H.lt_next at_s)

/-- `js_clone_shape`, and `js_free_shape` of the shape that was copied. -/
theorem Shared.clone (H : Shared k (s :: held) rt) (at_s : rt.shapes s = some sh)
    (hashed : sh.isHashed = true) (more : sh.refCount ≠ 1) (again : Bool) :
    ∃ rt₁, jsFreeShape (jsCloneShape rt sh again) s = some rt₁ ∧
      Cloned k held rt s sh again rt₁ := by
  have ne := H.ne_next List.mem_cons_self
  have ok := (H.ok s sh at_s).header 1 again sh.hash sh.proto
  obtain ⟨made, at_new, at_ne, objects, next⟩ :
      Shared k (rt.nextShape :: s :: held) (jsCloneShape rt sh again) ∧
        (jsCloneShape rt sh again).shapes rt.nextShape =
          some { sh with refCount := 1, isHashed := again } ∧
        (∀ t, t ≠ rt.nextShape → (jsCloneShape rt sh again).shapes t = rt.shapes t) ∧
        (jsCloneShape rt sh again).objects = rt.objects ∧
        (jsCloneShape rt sh again).nextObject = rt.nextObject := by
    cases again with
    | false => exact ⟨H.create ok rfl rfl, putShape_self .., fun t ne => putShape_ne rt ne _, rfl,
        rfl⟩
    | true =>
      exact ⟨H.create_linked ok rfl rfl (H.hash s sh at_s hashed), putShape_self ..,
        fun t ne => putShape_ne rt ne _, rfl, rfl⟩
  have at_s' := (at_ne s ne).trans at_s
  refine ⟨_, jsFreeShape_shared at_s' more (H.counted s sh at_s).2, ?_, ?_, ?_, objects, next⟩
  · exact (made.perm (.swap s rt.nextShape held)).release_shared at_s' more
  · exact (putShape_ne _ ne.symm _).trans at_new
  · intro t sh' there at_t
    by_cases same : t = s
    · subst same
      obtain rfl := Option.some.inj ((putShape_self ..).symm.trans at_t)
      exact ⟨sh, at_s, rfl, rfl⟩
    · rw [putShape_ne _ same, at_ne t there] at at_t
      exact ⟨sh', at_t, rfl, rfl⟩

/-- The other holders have what they had. -/
theorem Cloned.same {isHashed : Bool} {rt₁ : Runtime V} (C : Cloned k held rt s sh isHashed rt₁)
    (H : Shared k (s :: held) rt) : SameLayout held rt rt₁ := by
  intro t mem
  obtain ⟨sh', at_t⟩ := C.shared.there t (List.mem_cons_of_mem _ mem)
  obtain ⟨sh'', at_old, -, layout⟩ := C.old t sh' (H.ne_next (List.mem_cons_of_mem s mem)) at_t
  rw [at_t, at_old, Option.map_some, Option.map_some, layout]

/-- An object has its shape for itself, and the runtime does not find it. -/
structure Prepared (k : Nat) (held : List Nat) (rt : Runtime V) (o : Nat) (values : List V)
    (sh : Shape) (s : Nat) (rt' : Runtime V) : Prop where
  shared : Shared k (s :: held) rt'
  same : SameLayout held rt rt'
  older : NoneNew rt rt'
  objects : rt'.objects = Function.update rt.objects o (some ⟨s, values⟩)
  next : rt'.nextObject = rt.nextObject
  at_s : rt'.shapes s = some { sh with refCount := 1, isHashed := false }

theorem objects_self {o : Nat} {p : JSObject V} (at_o : rt.objects o = some p) :
    rt.objects = Function.update rt.objects o (some ⟨p.shape, p.prop⟩) :=
  Function.eq_update_self_iff.mpr at_o

theorem jsShapePrepareUpdate_eq {o : Nat} {p : JSObject V} (at_o : rt.objects o = some p)
    (at_s : rt.shapes p.shape = some sh) : jsShapePrepareUpdate rt o =
      if sh.isHashed then
        if sh.refCount ≠ 1 then replaceShape (jsCloneShape rt sh false) o p rt.nextShape p.prop
        else
          (jsShapeHashUnlink rt p.shape sh.hash).map fun rt =>
            rt.putShape p.shape (some { sh with isHashed := false })
      else some rt := by
  rw [jsShapePrepareUpdate, at_o, Option.bind_some, at_s, Option.bind_some]

section Prepare

variable {o : Nat} {p : JSObject V} (H : Shared k (p.shape :: held) rt)
  (at_o : rt.objects o = some p) (at_s : rt.shapes p.shape = some sh)

include H at_o at_s

theorem Shared.prepare_own (off : sh.isHashed = false) :
    jsShapePrepareUpdate rt o = some rt ∧ Prepared k held rt o p.prop sh p.shape rt := by
  have one := H.own p.shape sh at_s off
  constructor
  · simp [jsShapePrepareUpdate_eq at_o at_s, off]
  · constructor
    · exact H
    · exact .refl held rt
    · exact fun t sh' at_t on => ⟨sh', at_t, on, rfl⟩
    · exact objects_self at_o
    · rfl
    · rw [at_s, ← one, ← off]

theorem Shared.prepare_hashed (hashed : sh.isHashed = true) (one : sh.refCount = 1) :
    ∃ rt', jsShapePrepareUpdate rt o = some rt' ∧ Prepared k held rt o p.prop sh p.shape rt' := by
  obtain ⟨rt₁, unlink, eq, shared⟩ := H.unhash at_s one hashed
  have at_ne : ∀ t, t ≠ p.shape →
      (rt₁.putShape p.shape (some { sh with isHashed := false })).shapes t = rt.shapes t := by
    intro t ne
    rw [putShape_ne _ ne, eq]
  refine ⟨_, ?_, shared, .put (H.alone at_s one) at_ne, ?_, ?_, ?_, ?_⟩
  · rw [jsShapePrepareUpdate_eq at_o at_s, if_pos hashed, if_neg (not_not.mpr one), unlink,
      Option.map_some]
  · intro t sh' at_t on
    by_cases same : t = p.shape
    · subst same
      rw [putShape_self] at at_t
      cases at_t
      cases on
    · rw [at_ne t same] at at_t
      exact ⟨sh', at_t, on, rfl⟩
  · rw [eq]
    exact objects_self at_o
  · rw [eq]
    rfl
  · rw [putShape_self, ← one]

theorem Shared.prepare_shared (hashed : sh.isHashed = true) (more : sh.refCount ≠ 1) :
    ∃ rt', jsShapePrepareUpdate rt o = some rt' ∧
      Prepared k held rt o p.prop sh rt.nextShape rt' := by
  obtain ⟨rt₁, freed, C⟩ := H.clone at_s hashed more false
  refine ⟨rt₁.putObject o (some ⟨rt.nextShape, p.prop⟩), ?_, C.shared.objects _ _, C.same H, ?_, ?_,
    C.next, C.at_copy⟩
  · rw [jsShapePrepareUpdate_eq at_o at_s, if_pos hashed, if_pos more, replaceShape, freed,
      Option.map_some]
  · intro t sh' at_t on
    by_cases new : t = rt.nextShape
    · subst new
      obtain rfl := Option.some.inj (C.at_copy.symm.trans at_t)
      cases on
    · obtain ⟨sh'', at_old, same, layout⟩ := C.old t sh' new at_t
      exact ⟨sh'', at_old, same.trans on, layout⟩
  · rw [← C.objects]
    rfl

/-- `js_shape_prepare_update`. -/
theorem Shared.prepare :
    ∃ s rt', jsShapePrepareUpdate rt o = some rt' ∧ Prepared k held rt o p.prop sh s rt' := by
  cases hashed : sh.isHashed with
  | false => exact ⟨_, _, H.prepare_own at_o at_s hashed⟩
  | true =>
    by_cases one : sh.refCount = 1
    · exact ⟨_, H.prepare_hashed at_o at_s hashed one⟩
    · exact ⟨_, H.prepare_shared at_o at_s hashed one⟩

end Prepare

end Shapes
