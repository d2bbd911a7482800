import Goqjs.MapClear

/-!
# Entries with cursors

A map without records, buckets and locks: the list of the entries that it was given, with holes,
and cursors that are places of it. The calls that only look for a key do the same to both.
-/

namespace Maps

open OrderedMaps

variable {κ V : Type} {K : Keys κ} {s s' s₁ : MapState κ V} {k : κ} {v : V} {r t i n m p : Nat}
  {freed : List Nat}

/-- A cursor has the place that it looks at next, until it finds nothing there. -/
structure Cursor where
  forEach : Bool
  place : Option Nat

structure OrderedMap (κ V : Type) where
  entries : List (Option (κ × V))
  cursors : Nat → Option Cursor
  nextCursor : Nat

namespace OrderedMap

def init : OrderedMap κ V := ⟨[], fun _ => none, 0⟩

def put (m : OrderedMap κ V) (i : Nat) (c : Option Cursor) : OrderedMap κ V :=
  { m with cursors := Function.update m.cursors i c }

def close (m : OrderedMap κ V) (freed : List Nat) : OrderedMap κ V :=
  { m with
    cursors := fun i => if i ∈ freed then (m.cursors i).filter Cursor.forEach else m.cursors i }

def has (K : Keys κ) (m : OrderedMap κ V) (k : κ) : Bool := m.entries.any (hit K.same k)

/-- A cursor goes to the first entry from a place on, and past it. -/
def move (m : OrderedMap κ V) (i : Nat) (forEach : Bool) (p : Nat) :
    Answer κ V × OrderedMap κ V :=
  match firstFrom m.entries p with
  | none => (.done, m.put i (some ⟨forEach, none⟩))
  | some t =>
    (((m.entries[t]?).join.map Answer.entry).getD .done, m.put i (some ⟨forEach, some (t + 1)⟩))

theorem move_of_none {m : OrderedMap κ V} {forEach : Bool} (first : firstFrom m.entries p = none) :
    m.move i forEach p = (.done, m.put i (some ⟨forEach, none⟩)) := by
  rw [move, first]

theorem move_of_some {m : OrderedMap κ V} {forEach : Bool} {e : κ × V}
    (first : firstFrom m.entries p = some t) (here : (m.entries[t]?).join = some e) :
    m.move i forEach p = (.entry e, m.put i (some ⟨forEach, some (t + 1)⟩)) := by
  rw [move, first]
  simp only [here]
  rfl

/-- Where a cursor was does not matter for where it goes. -/
theorem move_put (m : OrderedMap κ V) (i : Nat) (c : Option Cursor) (forEach : Bool) (p : Nat) :
    (m.put i c).move i forEach p = m.move i forEach p := by
  have again : ∀ c', (m.put i c).put i c' = m.put i c' := by
    intro c'
    simp only [put, Function.update_idem]
  cases first : firstFrom m.entries p with
  | none => rw [move_of_none first, move_of_none (m := m.put i c) first, again]
  | some t =>
    rw [move, move, first]
    change firstFrom (m.put i c).entries p = some t at first
    rw [first]
    simp only [again]
    rfl

def advance (m : OrderedMap κ V) (i : Nat) (c : Cursor) (freed : List Nat) :
    Answer κ V × OrderedMap κ V :=
  match c.place with
  | none => (.done, m)
  | some p => (m.close freed).move i c.forEach p

def create (m : OrderedMap κ V) (forEach : Bool) : OrderedMap κ V :=
  { m.put m.nextCursor (some ⟨forEach, some 0⟩) with nextCursor := m.nextCursor + 1 }

/-- The iterators that all entries together hold. -/
def held (m : OrderedMap κ V) (freed : Nat → List Nat) : List Nat :=
  (List.range m.entries.length).flatMap fun r =>
    if (m.entries[r]?).join.isSome then freed r else []

/-- A call and its answer. -/
def exec (K : Keys κ) (m : OrderedMap κ V) : Op κ V → Answer κ V × OrderedMap κ V
  | .set k v freed =>
    (.undefined,
      { (if m.has K k then m.close freed else m) with entries := write K.same m.entries k v })
  | .get k => (.value (lookup K.same m.entries k), m)
  | .has k => (.truth (m.has K k), m)
  | .getOrInsert k v =>
    if m.has K k then (.value (lookup K.same m.entries k), m)
    else (.value (some v), { m with entries := m.entries ++ [some (k, v)] })
  | .insertComputed k v freed =>
    (.value (some v),
      { (if m.has K k then m.close freed else m) with
        entries := erase K.same m.entries k ++ [some (k, v)] })
  | .delete k freed =>
    (.truth (m.has K k),
      { (if m.has K k then m.close freed else m) with entries := erase K.same m.entries k })
  | .clear freed =>
    (.undefined, { m.close (m.held freed) with entries := m.entries.map fun _ => none })
  | .size => (.count (size m.entries), m)
  | .iterate => (.iterator m.nextCursor, m.create false)
  | .next i =>
    match m.cursors i with
    | none => (.notIterator, m)
    | some c => if c.forEach then (.notIterator, m) else m.advance i c []
  | .finalize i => (.undefined, m.close [i])
  | .forEach => (m.create true).advance m.nextCursor ⟨true, some 0⟩ []
  | .resume i freed =>
    match m.cursors i with
    | none => (.notIterator, m)
    | some c => if c.forEach then m.advance i c freed else (.notIterator, m)
  | .abort i => (.undefined, m.put i ((m.cursors i).filter fun c => !c.forEach))

/-- A cursor that moves leaves the entries, and makes no other cursor. -/
theorem advance_keeps (m : OrderedMap κ V) (i : Nat) (c : Cursor) (freed : List Nat) :
    (m.advance i c freed).2.entries = m.entries ∧
      (m.advance i c freed).2.nextCursor = m.nextCursor := by
  rw [advance]
  cases c.place with
  | none => exact ⟨rfl, rfl⟩
  | some p =>
    change ((m.close freed).move i c.forEach p).2.entries = _ ∧
      ((m.close freed).move i c.forEach p).2.nextCursor = _
    rw [move]
    cases firstFrom (m.close freed).entries p <;> exact ⟨rfl, rfl⟩

/-- A call makes one entry and one cursor more at most. -/
theorem exec_grows (m : OrderedMap κ V) (op : Op κ V) :
    (m.exec K op).2.entries.length ≤ m.entries.length + 1 ∧
      (m.exec K op).2.nextCursor ≤ m.nextCursor + 1 := by
  have closing : ∀ (b : Bool) (freed : List Nat),
      (if b then m.close freed else m).nextCursor = m.nextCursor := by
    intro b freed
    cases b <;> rfl
  cases op with
  | set k v freed =>
    refine ⟨length_write_le m.entries k v, ?_⟩
    exact (closing (m.has K k) freed).le.trans (Nat.le_succ _)
  | get k => exact ⟨Nat.le_succ _, Nat.le_succ _⟩
  | has k => exact ⟨Nat.le_succ _, Nat.le_succ _⟩
  | getOrInsert k v =>
    rw [exec]
    split_ifs
    · exact ⟨Nat.le_succ _, Nat.le_succ _⟩
    · exact ⟨by simp, Nat.le_succ _⟩
  | insertComputed k v freed =>
    refine ⟨?_, (closing (m.has K k) freed).le.trans (Nat.le_succ _)⟩
    change (erase K.same m.entries k ++ [some (k, v)]).length ≤ _
    rw [List.length_append, length_erase, List.length_singleton]
  | delete k freed =>
    refine ⟨?_, (closing (m.has K k) freed).le.trans (Nat.le_succ _)⟩
    change (erase K.same m.entries k).length ≤ _
    rw [length_erase]
    exact Nat.le_succ _
  | clear freed =>
    refine ⟨?_, Nat.le_succ _⟩
    change (m.entries.map fun _ => none).length ≤ _
    rw [List.length_map]
    exact Nat.le_succ _
  | size => exact ⟨Nat.le_succ _, Nat.le_succ _⟩
  | iterate => exact ⟨Nat.le_succ _, Nat.le_refl _⟩
  | next i =>
    rw [exec]
    cases m.cursors i with
    | none => exact ⟨Nat.le_succ _, Nat.le_succ _⟩
    | some c =>
      dsimp only
      split_ifs
      · exact ⟨Nat.le_succ _, Nat.le_succ _⟩
      · obtain ⟨entries, cursors⟩ := m.advance_keeps i c []
        rw [entries, cursors]
        exact ⟨Nat.le_succ _, Nat.le_succ _⟩
  | finalize i => exact ⟨Nat.le_succ _, Nat.le_succ _⟩
  | forEach =>
    rw [exec]
    obtain ⟨entries, cursors⟩ := (m.create true).advance_keeps m.nextCursor ⟨true, some 0⟩ []
    rw [entries, cursors]
    exact ⟨Nat.le_succ _, Nat.le_refl _⟩
  | resume i freed =>
    rw [exec]
    cases m.cursors i with
    | none => exact ⟨Nat.le_succ _, Nat.le_succ _⟩
    | some c =>
      dsimp only
      split_ifs
      · obtain ⟨entries, cursors⟩ := m.advance_keeps i c freed
        rw [entries, cursors]
        exact ⟨Nat.le_succ _, Nat.le_succ _⟩
      · exact ⟨Nat.le_succ _, Nat.le_succ _⟩
  | abort i => exact ⟨Nat.le_succ _, Nat.le_succ _⟩

def execAll (K : Keys κ) (m : OrderedMap κ V) : List (Op κ V) → List (Answer κ V) × OrderedMap κ V
  | [] => ([], m)
  | op :: ops =>
    let t := exec K m op
    let u := execAll K t.2 ops
    (t.1 :: u.1, u.2)

end OrderedMap

/-- An iterator on a record looks behind it next. -/
def Place.next : Place → Option Nat
  | .start => some 0
  | .on r => some (r + 1)
  | .finished => none

def cursorOf (it : MapIterator) : Cursor := ⟨it.forEach, it.place.next⟩

def cursorsOf (its : Nat → Option MapIterator) (i : Nat) : Option Cursor := (its i).map cursorOf

def MapState.view (s : MapState κ V) : OrderedMap κ V :=
  ⟨places s.entryAt s.nextRecord, cursorsOf s.iterators, s.nextIterator⟩

@[simp] theorem MapState.view_entries_length (s : MapState κ V) :
    s.view.entries.length = s.nextRecord := length_places ..

theorem Shows.view {entries : Nat → Option (κ × V)} {its : Nat → Option MapIterator}
    (shown : Shows s entries n its m) : s.view = ⟨places entries n, cursorsOf its, m⟩ := by
  rw [MapState.view, shown.entries, shown.nextRecord, shown.iterators, shown.nextIterator]

theorem cursorsOf_closed (freed : List Nat) (its : Nat → Option MapIterator) :
    cursorsOf (closed freed its) = fun i =>
      if i ∈ freed then (cursorsOf its i).filter Cursor.forEach else cursorsOf its i := by
  funext i
  rw [cursorsOf, closed]
  split_ifs with mem
  · rw [cursorsOf, Option.filter_map]
    rfl
  · rfl

theorem cursorsOf_update (its : Nat → Option MapIterator) (i : Nat) (x : Option MapIterator) :
    cursorsOf (Function.update its i x) =
      Function.update (cursorsOf its) i (x.map cursorOf) := by
  funext j
  rcases eq_or_ne j i with rfl | ne
  · rw [cursorsOf, Function.update_self, Function.update_self]
  · rw [cursorsOf, Function.update_of_ne ne, Function.update_of_ne ne, cursorsOf]

theorem closed_update (freed : List Nat) (its : Nat → Option MapIterator) (i : Nat)
    (x : Option MapIterator) : closed freed (Function.update its i x) =
      Function.update (closed freed its) i (if i ∈ freed then x.filter MapIterator.forEach else x)
    := by
  funext j
  rcases eq_or_ne j i with rfl | ne
  · rw [closed, Function.update_self, Function.update_self]
  · rw [closed, Function.update_of_ne ne, Function.update_of_ne ne, closed]

theorem view_close (s : MapState κ V) (freed : List Nat) : s.view.close freed =
    ⟨places s.entryAt s.nextRecord, cursorsOf (closed freed s.iterators), s.nextIterator⟩ := by
  rw [cursorsOf_closed]
  rfl

/-- A key has one record, or none. -/
theorem Sound.key (S : Sound K s) (k : κ) :
    (∃ r e, s.mapFindRecord K k = some (some r) ∧ s.entryAt r = some e ∧ K.same e.1 k = true ∧
        r < s.nextRecord ∧ (∀ t, hit K.same k (s.entryAt t) = true → t = r) ∧
        s.view.has K k = true) ∨
      s.mapFindRecord K k = some none ∧ (∀ t, hit K.same k (s.entryAt t) = false) ∧
        s.view.has K k = false := by
  rcases S.hashed.mapFindRecord k with ⟨r, e, found, at_r, same⟩ | ⟨found, miss⟩
  · have inside := S.held.lt_of_entry (by rw [at_r]; rfl)
    refine .inl ⟨r, e, found, at_r, same, inside, S.hashed.distinct.only at_r same, ?_⟩
    exact any_places.mpr ⟨r, inside, hit_iff.mpr ⟨e, at_r, same⟩⟩
  · refine .inr ⟨found, miss, ?_⟩
    rw [Bool.eq_false_iff]
    intro there
    obtain ⟨t, -, hits⟩ := any_places.mp there
    rw [miss t] at hits
    cases hits

theorem Sound.set (S : Sound K s) (few : s.nextRecord < 2 ^ 30) (k : κ) (v : V) (freed : List Nat) :
    ∃ s', s.jsMapSet K k v freed = some s' ∧ Sound K s' ∧
      s'.view = (s.view.exec K (.set k v freed)).2 := by
  rw [MapState.jsMapSet, OrderedMap.exec]
  rcases S.key k with ⟨r, e, found, at_r, same, inside, only, has⟩ | ⟨found, miss, has⟩
  · obtain ⟨s₁, closing, S₁, shown₁⟩ := S.freeValues freed
    have at_r₁ : s₁.entryAt r = some e := by rw [shown₁.entries, at_r]
    obtain ⟨mr, there, S₂, shown₂⟩ := S₁.store at_r₁ v
    refine ⟨_, ?_, S₂, ?_⟩
    · rw [found, Option.bind_some]
      change ((s.freeValues freed).bind fun s => _) = _
      rw [closing, Option.bind_some, there, Option.map_some]
    · rw [shown₂.view, shown₁.entries, shown₁.nextRecord, shown₁.iterators, shown₁.nextIterator,
        has, if_pos rfl, view_close]
      congr 1
      exact (write_of_hit inside at_r same only v).symm
  · obtain ⟨S₁, shown⟩ := S.mapAddRecord few miss v
    refine ⟨_, by rw [found]; rfl, S₁, ?_⟩
    rw [shown.view, has, if_neg Bool.false_ne_true]
    congr 1
    exact (write_of_miss miss v).symm

theorem Sound.lookup (S : Sound K s) (k : κ) :
    s.jsMapGet K k = some (OrderedMaps.lookup K.same s.view.entries k) := by
  rw [MapState.jsMapGet]
  rcases S.key k with ⟨r, e, found, at_r, same, inside, only, -⟩ | ⟨found, miss, -⟩
  · rw [found, Option.map_some, Option.bind_some, at_r]
    exact congrArg some (lookup_of_hit inside at_r same only).symm
  · rw [found]
    exact congrArg some (lookup_of_miss miss).symm

theorem Sound.has (S : Sound K s) (k : κ) : s.jsMapHas K k = some (s.view.has K k) := by
  rw [MapState.jsMapHas]
  rcases S.key k with ⟨r, e, found, -, -, -, -, has⟩ | ⟨found, -, has⟩ <;> rw [found, has] <;> rfl

theorem Sound.getOrInsert (S : Sound K s) (few : s.nextRecord < 2 ^ 30) (k : κ) (v : V) :
    ∃ w s', s.jsMapGetOrInsert K k v = some (w, s') ∧ Sound K s' ∧
      s.view.exec K (.getOrInsert k v) = (.value w, s'.view) := by
  rw [MapState.jsMapGetOrInsert, OrderedMap.exec]
  rcases S.key k with ⟨r, e, found, at_r, same, inside, only, has⟩ | ⟨found, miss, has⟩
  · refine ⟨(s.entryAt r).map Prod.snd, s, by rw [found]; rfl, S, ?_⟩
    rw [has, if_pos rfl, at_r]
    exact congrArg (fun w => (Answer.value w, s.view)) (lookup_of_hit inside at_r same only)
  · obtain ⟨S₁, shown⟩ := S.mapAddRecord few miss v
    refine ⟨some v, s.mapAddRecord K k v, by rw [found]; rfl, S₁, ?_⟩
    rw [has, if_neg Bool.false_ne_true, shown.view]
    congr 2
    have absent : ¬(places s.entryAt s.nextRecord).any (hit K.same k) = true := by
      rw [show (places s.entryAt s.nextRecord).any (hit K.same k) = false from has]
      exact Bool.false_ne_true
    have added := write_of_miss (n := s.nextRecord) miss v
    rw [write, if_neg absent] at added
    exact added

theorem Sound.delete (S : Sound K s) (k : κ) (freed : List Nat) :
    ∃ b s', s.jsMapDelete K k freed = some (b, s') ∧ Sound K s' ∧
      s.view.exec K (.delete k freed) = (.truth b, s'.view) := by
  rw [MapState.jsMapDelete, OrderedMap.exec]
  rcases S.key k with ⟨r, e, found, at_r, same, inside, only, has⟩ | ⟨found, miss, has⟩
  · obtain ⟨s', deleted, S', shown⟩ := S.mapDeleteRecord at_r freed
    refine ⟨true, s', ?_, S', ?_⟩
    · rw [found, Option.bind_some]
      change (s.mapDeleteRecord r freed).map _ = _
      rw [deleted]
      rfl
    · rw [has, if_pos rfl, shown.view, view_close]
      exact congrArg (fun l => (Answer.truth true,
        (⟨l, cursorsOf (closed freed s.iterators), s.nextIterator⟩ : OrderedMap κ V)))
        (erase_of_hit at_r same only)
  · refine ⟨false, s, by rw [found]; rfl, S, ?_⟩
    rw [has, if_neg Bool.false_ne_true]
    exact congrArg (fun l => (Answer.truth false, { s.view with entries := l }))
      (erase_of_miss miss)

/-- The callback of `getOrInsertComputed` may have added the key; its entry moves to the end. -/
theorem Sound.insertComputed (S : Sound K s) (few : s.nextRecord < 2 ^ 30) (k : κ) (v : V)
    (freed : List Nat) :
    ∃ s', s.jsMapInsertComputed K k v freed = some s' ∧ Sound K s' ∧
      s'.view = (s.view.exec K (.insertComputed k v freed)).2 := by
  rw [MapState.jsMapInsertComputed, OrderedMap.exec]
  rcases S.key k with ⟨r, e, found, at_r, same, inside, only, has⟩ | ⟨found, miss, has⟩
  · obtain ⟨s₁, deleted, S₁, shown₁⟩ := S.mapDeleteRecord at_r freed
    have miss₁ : ∀ t, hit K.same k (s₁.entryAt t) = false := by
      intro t
      rw [shown₁.entries]
      rcases eq_or_ne t r with rfl | ne
      · rw [Function.update_self]
        rfl
      · rw [Function.update_of_ne ne, Bool.eq_false_iff]
        exact fun hits => ne (only t hits)
    obtain ⟨S₂, shown₂⟩ := S₁.mapAddRecord (by rwa [shown₁.nextRecord]) miss₁ v
    refine ⟨_, ?_, S₂, ?_⟩
    · rw [found, Option.bind_some]
      change (s.mapDeleteRecord r freed).map _ = _
      rw [deleted]
      rfl
    · rw [shown₂.view, shown₁.entries, shown₁.nextRecord, shown₁.iterators, shown₁.nextIterator,
        has, if_pos rfl, view_close, places_succ, Function.update_self]
      congr 1
      change _ = erase K.same (places s.entryAt s.nextRecord) k ++ _
      rw [erase_of_hit at_r same only]
      congr 1
      exact places_congr fun t less => Function.update_of_ne (Nat.ne_of_lt less) _ _
  · obtain ⟨S₁, shown⟩ := S.mapAddRecord few miss v
    refine ⟨_, by rw [found]; rfl, S₁, ?_⟩
    rw [shown.view, has, if_neg Bool.false_ne_true, places_succ, Function.update_self]
    congr 1
    change _ = erase K.same (places s.entryAt s.nextRecord) k ++ _
    rw [erase_of_miss miss]
    congr 1
    exact places_congr fun t less => Function.update_of_ne (Nat.ne_of_lt less) _ _

end Maps
