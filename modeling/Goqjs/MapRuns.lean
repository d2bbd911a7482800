import Goqjs.MapEntries
import Goqjs.MapKeys

/-!
# Runs over a map

A map with its records, buckets and locks answers as a list of entries with cursors does, as long
as no call touches a freed record; and which calls do that is said of the state before them.
-/

namespace Maps

open OrderedMaps ReferenceGraph

variable {κ V : Type} {K : Keys κ} {s s' : MapState κ V} {r i p : Nat} {freed : List Nat}

theorem Moved.view {forEach : Bool} {answer : Answer κ V} (M : Moved K s i forEach p answer s') :
    s.view.move i forEach p = (answer, s'.view) := by
  obtain ⟨-, place, shown, none_left | found⟩ := M
  · obtain ⟨first, rfl, rfl⟩ := none_left
    rw [OrderedMap.move_of_none first, shown.view, cursorsOf_update]
    rfl
  · obtain ⟨t, e, first, at_t, rfl, rfl⟩ := found
    have inside : t < s.nextRecord := by simpa using firstFrom_lt first
    have here : (s.view.entries[t]?).join = some e := by
      change ((places s.entryAt s.nextRecord)[t]?).join = some e
      rw [getElem?_places _ inside, at_t]
      rfl
    rw [OrderedMap.move_of_some first here, shown.view, cursorsOf_update]
    rfl

/-- An iterator or a call of `forEach` takes its next step. -/
theorem Sound.advance (S : Sound K s) (few : s.nextIterator ≤ 2 ^ 30) {it : MapIterator}
    (at_i : s.iterators i = some it) (keeps : it.forEach = true ∨ freed = []) :
    (NextFreed s i it.forEach freed ∧ s.advance i it freed = none) ∨
      (¬NextFreed s i it.forEach freed ∧ ∃ answer s',
        s.advance i it freed = some (answer, s') ∧ Sound K s' ∧
        s.view.advance i (cursorOf it) freed = (answer, s'.view)) := by
  obtain ⟨forEach, place⟩ := it
  cases place with
  | start =>
    obtain ⟨answer, s₁, s', result, shown, moved⟩ := S.advance_start few at_i keeps
    refine .inr ⟨?_, answer, s', result, moved.1, ?_⟩
    · rintro ⟨r, x, at_i', -⟩
      rw [at_i] at at_i'
      cases at_i'
    · rw [← moved.view, shown.view, ← view_close]
      rfl
  | finished =>
    refine .inr ⟨?_, .done, s, rfl, S, rfl⟩
    rintro ⟨r, x, at_i', -⟩
    rw [at_i] at at_i'
    cases at_i'
  | on r =>
    rcases S.advance_on few at_i keeps with
      touched | ⟨untouched, answer, s₁, s', result, shown, moved⟩
    · exact .inl touched
    · refine .inr ⟨untouched, answer, s', result, moved.1, ?_⟩
      have before : s₁.view = (s.view.close freed).put i
          ((if i ∈ freed then (some (MapIterator.mk forEach .finished)).filter MapIterator.forEach
            else some ⟨forEach, .finished⟩).map cursorOf) := by
        rw [shown.view, closed_update, cursorsOf_update, view_close]
        rfl
      rw [← moved.view, before, OrderedMap.move_put]
      rfl

theorem Held.not_nextFreed_nil (H : Held s) (forEach : Bool) : ¬NextFreed s i forEach [] := by
  rintro ⟨r, x, at_i, head, gone⟩
  have mem := H.there i r (stands_on at_i)
  have listed := (head?_least (H.sorted_after mem) head).1
  exact H.not_freed_nil ((H.mem_after mem).mp listed).1 gone

/-- `next` of an iterator never touches a freed record. -/
theorem Sound.next (S : Sound K s) (few : s.nextIterator ≤ 2 ^ 30) (i : Nat) :
    ∃ s', s.jsMapIteratorNext i = some ((s.view.exec K (.next i)).1, s') ∧ Sound K s' ∧
      s'.view = (s.view.exec K (.next i)).2 := by
  have at_view : s.view.cursors i = (s.iterators i).map cursorOf := rfl
  rw [MapState.jsMapIteratorNext, OrderedMap.exec, at_view]
  cases at_i : s.iterators i with
  | none => exact ⟨s, rfl, S, rfl⟩
  | some it =>
    rw [Option.map_some]
    by_cases frame : it.forEach = true
    · simp only [frame, cursorOf, if_true]
      exact ⟨s, rfl, S, rfl⟩
    · rcases S.advance few at_i (.inr rfl) with ⟨touched, -⟩ | ⟨-, answer, s', result, S', view⟩
      · exact absurd touched (S.held.not_nextFreed_nil it.forEach)
      · have callback : ¬(cursorOf it).forEach = true := frame
        simp only [frame, callback, view]
        exact ⟨s', result, S', rfl⟩

theorem Sound.resume (S : Sound K s) (few : s.nextIterator ≤ 2 ^ 30) (i : Nat)
    (freed : List Nat) :
    (NextFreed s i true freed ∧ s.jsMapForEachResume i freed = none) ∨
      (¬NextFreed s i true freed ∧ ∃ s',
        s.jsMapForEachResume i freed = some ((s.view.exec K (.resume i freed)).1, s') ∧
        Sound K s' ∧ s'.view = (s.view.exec K (.resume i freed)).2) := by
  have at_view : s.view.cursors i = (s.iterators i).map cursorOf := rfl
  rw [MapState.jsMapForEachResume, OrderedMap.exec, at_view]
  cases at_i : s.iterators i with
  | none =>
    refine .inr ⟨?_, s, rfl, S, rfl⟩
    rintro ⟨r, x, at_i', -⟩
    rw [at_i] at at_i'
    cases at_i'
  | some it =>
    rw [Option.map_some]
    by_cases frame : it.forEach = true
    · have callback : (cursorOf it).forEach = true := frame
      simp only [frame, callback, if_true]
      rcases S.advance few at_i (.inl frame) with
        ⟨touched, result⟩ | ⟨untouched, answer, s', result, S', view⟩
      · rw [frame] at touched
        exact .inl ⟨touched, result⟩
      · rw [frame] at untouched
        refine .inr ⟨untouched, s', ?_, S', ?_⟩
        · rw [result, view]
        · rw [view]
    · have callback : ¬(cursorOf it).forEach = true := frame
      simp only [frame, callback]
      refine .inr ⟨?_, s, rfl, S, rfl⟩
      rintro ⟨r, x, at_i', -⟩
      rw [at_i] at at_i'
      obtain rfl := Option.some.inj at_i'
      exact frame rfl

theorem Sound.create (S : Sound K s) (forEach : Bool) :
    Sound K (s.jsCreateMapIterator forEach) ∧
      (s.jsCreateMapIterator forEach).view = s.view.create forEach := by
  have H := S.held
  have stands : ∀ j r, (s.jsCreateMapIterator forEach).Stands j r ↔ s.Stands j r := by
    intro j r
    rw [MapState.Stands, MapState.Stands]
    change lockOf (Function.update s.iterators s.nextIterator _ j) = [r] ↔ _
    rcases eq_or_ne j s.nextIterator with rfl | ne
    · rw [Function.update_self, H.fresh _ (Nat.le_refl _)]
      rfl
    · rw [Function.update_of_ne ne]
  have locks : ∀ r, (s.jsCreateMapIterator forEach).locks r = s.locks r := by
    intro r
    have old : heldBy (fun i => lockOf ((s.jsCreateMapIterator forEach).iterators i))
        (List.range s.nextIterator) =
        heldBy (fun i => lockOf (s.iterators i)) (List.range s.nextIterator) := by
      apply heldBy_congr
      intro j mem
      change lockOf (Function.update s.iterators s.nextIterator _ j) = _
      rw [Function.update_of_ne (Nat.ne_of_lt (List.mem_range.mp mem))]
    have new : lockOf ((s.jsCreateMapIterator forEach).iterators s.nextIterator) = [] := by
      change lockOf (Function.update s.iterators s.nextIterator _ s.nextIterator) = []
      rw [Function.update_self]
      rfl
    rw [MapState.locks, MapState.locks]
    change (heldBy _ (List.range (s.nextIterator + 1))).count r = _
    rw [List.range_succ, heldBy_append, old, heldBy_cons, heldBy_nil, new, List.append_nil,
      List.append_nil]
  refine ⟨⟨⟨H.sorted, H.listed, H.below, ?_,
    fun j r on_r => H.there j r ((stands j r).mp on_r), ?_⟩,
    ⟨S.hashed.filed, S.hashed.distinct, S.hashed.count, S.hashed.sized, S.hashed.load,
      S.hashed.fits⟩⟩, ?_⟩
  · intro r mr at_r
    rw [locks]
    exact H.counts r mr at_r
  · intro j outside
    have outside : s.nextIterator + 1 ≤ j := outside
    change Function.update s.iterators s.nextIterator _ j = none
    rw [Function.update_of_ne (by omega)]
    exact H.fresh j (by omega)
  · have shown : Shows (s.jsCreateMapIterator forEach) s.entryAt s.nextRecord
        (Function.update s.iterators s.nextIterator (some ⟨forEach, .start⟩))
        (s.nextIterator + 1) := ⟨rfl, rfl, rfl, rfl⟩
    rw [shown.view, cursorsOf_update]
    rfl

theorem Sound.forEach (S : Sound K s) (few : s.nextIterator < 2 ^ 30) :
    ∃ s', s.jsMapForEach = some ((s.view.exec K .forEach).1, s') ∧ Sound K s' ∧
      s'.view = (s.view.exec K .forEach).2 := by
  obtain ⟨S₀, view₀⟩ := S.create true
  have at_i : (s.jsCreateMapIterator true).iterators s.nextIterator = some ⟨true, .start⟩ :=
    Function.update_self ..
  rcases S₀.advance few at_i (.inr rfl) with
    ⟨touched, -⟩ | ⟨-, answer, s', result, S', view⟩
  · exact absurd touched (S₀.held.not_nextFreed_nil true)
  · have spec : s.view.exec K .forEach = (answer, s'.view) := by
      rw [OrderedMap.exec, ← view₀]
      exact view
    rw [spec]
    exact ⟨s', result, S', rfl⟩

theorem Sound.finalize (S : Sound K s) (i : Nat) :
    ∃ s', s.mapIteratorFinalizer i = some s' ∧ Sound K s' ∧ s'.view = s.view.close [i] := by
  obtain ⟨s', result, held, kept, iterators⟩ := S.held.finalizer i
  refine ⟨s', result, ⟨held, S.hashed.kept kept⟩, ?_⟩
  have shown : Shows s' s.entryAt s.nextRecord (closed [i] s.iterators) s.nextIterator :=
    ⟨kept.entries, kept.nextRecord, iterators, kept.nextIterator⟩
  rw [shown.view, view_close]

theorem Sound.abort (S : Sound K s) (i : Nat) :
    ∃ s', s.jsMapForEachAbort i = some s' ∧ Sound K s' ∧
      s'.view = (s.view.exec K (.abort i)).2 := by
  have spec : (s.view.exec K (.abort i)).2 =
      s.view.put i (((s.iterators i).map cursorOf).filter fun c => !c.forEach) := rfl
  rw [MapState.jsMapForEachAbort, spec]
  cases at_i : s.iterators i with
  | none =>
    refine ⟨s, rfl, S, ?_⟩
    have same : Function.update (cursorsOf s.iterators) i none = cursorsOf s.iterators := by
      rw [show none = cursorsOf s.iterators i by rw [cursorsOf, at_i]; rfl,
        Function.update_eq_self]
    change s.view = { s.view with cursors := Function.update (cursorsOf s.iterators) i none }
    rw [same]
    rfl
  | some it =>
    by_cases frame : it.forEach = true
    · obtain ⟨s', result, held, kept, iterators⟩ := S.held.leave at_i (x := none) rfl
      refine ⟨s', by rw [← result]; exact if_pos frame, ⟨held, S.hashed.kept kept⟩, ?_⟩
      have shown : Shows s' s.entryAt s.nextRecord (Function.update s.iterators i none)
          s.nextIterator := ⟨kept.entries, kept.nextRecord, iterators, kept.nextIterator⟩
      have gone : ¬(!(cursorOf it).forEach) = true := by simp [cursorOf, frame]
      rw [shown.view, cursorsOf_update, Option.map_some, Option.filter_some, if_neg gone]
      rfl
    · refine ⟨s, if_neg frame, S, ?_⟩
      have same : Function.update (cursorsOf s.iterators) i (some (cursorOf it)) =
          cursorsOf s.iterators := by
        rw [show some (cursorOf it) = cursorsOf s.iterators i by rw [cursorsOf, at_i]; rfl,
          Function.update_eq_self]
      rw [Option.map_some, Option.filter_some, if_pos (by simp [cursorOf, frame])]
      change s.view = { s.view with
        cursors := Function.update (cursorsOf s.iterators) i (some (cursorOf it)) }
      rw [same]
      rfl

/-- The call touches a record that is freed under way. -/
def Touches (s : MapState κ V) : Op κ V → Prop
  | .clear freed => ∃ r ∈ s.records, FreesNext s freed r
  | .resume i freed => NextFreed s i true freed
  | _ => False

theorem Sound.clear (S : Sound K s) (freed : Nat → List Nat) :
    (Touches s (.clear freed) ∧ s.jsMapClear freed = none) ∨
      (¬Touches s (.clear freed) ∧ ∃ s', s.jsMapClear freed = some s' ∧ Sound K s' ∧
        s'.view = (s.view.exec K (.clear freed)).2) := by
  rcases S.jsMapClear freed with touched | ⟨untouched, s', result, S', cleared⟩
  · exact .inl touched
  · refine .inr ⟨untouched, s', result, S', ?_⟩
    have all : closed (freedBefore s freed s.nextRecord) s.iterators =
        closed (s.view.held freed) s.iterators := by
      apply closed_congr
      intro i
      rw [mem_freedBefore, OrderedMap.held, List.mem_flatMap]
      change _ ↔ ∃ r ∈ List.range (places s.entryAt s.nextRecord).length,
        i ∈ if ((places s.entryAt s.nextRecord)[r]?).join.isSome then freed r else []
      rw [length_places]
      constructor
      · rintro ⟨r, -, inside, live, freed_r⟩
        refine ⟨r, List.mem_range.mpr inside, ?_⟩
        rw [getElem?_places _ inside, Option.join_some, if_pos live]
        exact freed_r
      · rintro ⟨r, mem, freed_r⟩
        have inside := List.mem_range.mp mem
        rw [getElem?_places _ inside, Option.join_some] at freed_r
        split_ifs at freed_r with live
        · exact ⟨r, S.held.mem_iff.mpr (.inl live), inside, live, freed_r⟩
        · cases freed_r
    have holes : places (fun y => if y < s.nextRecord then none else s.entryAt y) s.nextRecord =
        (places s.entryAt s.nextRecord).map fun _ => none := by
      rw [places, places, List.map_map]
      apply List.map_congr_left
      intro y mem
      exact if_pos (List.mem_range.mp mem)
    have shown : Shows s' _ _ _ _ := cleared
    rw [shown.view, holes, all]
    change _ = { s.view.close (s.view.held freed) with entries := s.view.entries.map fun _ => none }
    rw [view_close]
    rfl

/-- A call does to the map what it does to entries with cursors, if it touches no freed record. -/
theorem Sound.exec (S : Sound K s) (few : s.nextRecord < 2 ^ 30 ∧ s.nextIterator < 2 ^ 30)
    (op : Op κ V) :
    (Touches s op ∧ s.exec K op = none) ∨
      (¬Touches s op ∧ ∃ s', s.exec K op = some ((s.view.exec K op).1, s') ∧ Sound K s' ∧
        s'.view = (s.view.exec K op).2) := by
  cases op with
  | set k v freed =>
    obtain ⟨s', result, S', view⟩ := S.set few.1 k v freed
    exact .inr ⟨id, s', by rw [MapState.exec, result]; rfl, S', view⟩
  | get k => exact .inr ⟨id, s, by rw [MapState.exec, S.lookup k]; rfl, S, rfl⟩
  | has k => exact .inr ⟨id, s, by rw [MapState.exec, S.has k]; rfl, S, rfl⟩
  | getOrInsert k v =>
    obtain ⟨w, s', result, S', spec⟩ := S.getOrInsert few.1 k v
    rw [spec]
    exact .inr ⟨id, s', by rw [MapState.exec, result]; rfl, S', rfl⟩
  | insertComputed k v freed =>
    obtain ⟨s', result, S', view⟩ := S.insertComputed few.1 k v freed
    exact .inr ⟨id, s', by rw [MapState.exec, result]; rfl, S', view⟩
  | delete k freed =>
    obtain ⟨b, s', result, S', spec⟩ := S.delete k freed
    rw [spec]
    exact .inr ⟨id, s', by rw [MapState.exec, result]; rfl, S', rfl⟩
  | clear freed =>
    rcases S.clear freed with ⟨touched, result⟩ | ⟨untouched, s', result, S', view⟩
    · exact .inl ⟨touched, by rw [MapState.exec, result]; rfl⟩
    · exact .inr ⟨untouched, s', by rw [MapState.exec, result]; rfl, S', view⟩
  | size =>
    refine .inr ⟨id, s, ?_, S, rfl⟩
    rw [MapState.exec, S.hashed.count]
    rfl
  | iterate =>
    obtain ⟨S', view⟩ := S.create false
    exact .inr ⟨id, _, rfl, S', view⟩
  | next i => exact .inr ⟨id, S.next few.2.le i⟩
  | finalize i =>
    obtain ⟨s', result, S', view⟩ := S.finalize i
    exact .inr ⟨id, s', by rw [MapState.exec, result]; rfl, S', view⟩
  | forEach => exact .inr ⟨id, S.forEach few.2⟩
  | resume i freed => exact S.resume few.2.le i freed
  | abort i =>
    obtain ⟨s', result, S', view⟩ := S.abort i
    exact .inr ⟨id, s', by rw [MapState.exec, result]; rfl, S', view⟩

theorem sound_init : Sound K (MapState.init : MapState κ V) where
  held :=
    { sorted := List.Pairwise.nil
      listed := fun r => iff_of_false List.not_mem_nil Bool.false_ne_true
      below := fun r mem => absurd mem List.not_mem_nil
      counts := fun r mr there => by cases there
      there := fun i r on_r => by cases on_r
      fresh := fun _ _ => rfl }
  hashed :=
    { filed := Buckets.filed_replicate 1
      distinct := fun r t e e' at_r => by cases at_r
      count := rfl
      sized := ⟨0, rfl, Nat.zero_ne_one, rfl⟩
      load := Nat.succ_pos 3
      fits := Nat.le_of_ble_eq_true rfl }

/-- Some call of a run from here touches a freed record. -/
def MapState.TouchedBy (K : Keys κ) (s : MapState κ V) (ops : List (Op κ V)) : Prop :=
  ∃ before op later answers t, ops = before ++ op :: later ∧
    s.execAll K before = some (answers, t) ∧ Touches t op

/-- A run goes on as one over entries with cursors does, until a call touches a freed record. -/
theorem Sound.execAll (S : Sound K s) (ops : List (Op κ V))
    (few : s.nextRecord + ops.length ≤ 2 ^ 30 ∧ s.nextIterator + ops.length ≤ 2 ^ 30) :
    (s.TouchedBy K ops ∧ s.execAll K ops = none) ∨
      (¬s.TouchedBy K ops ∧ ∃ s', s.execAll K ops = some ((s.view.execAll K ops).1, s') ∧
        Sound K s' ∧ s'.view = (s.view.execAll K ops).2) := by
  induction ops generalizing s with
  | nil =>
    refine .inr ⟨?_, s, rfl, S, rfl⟩
    rintro ⟨before, op, later, -, -, eq, -⟩
    simp at eq
  | cons op ops ih =>
    obtain ⟨few, fewer⟩ := few
    rw [List.length_cons] at few fewer
    rw [MapState.execAll]
    rcases S.exec ⟨by omega, by omega⟩ op with
      ⟨touched, result⟩ | ⟨untouched, s₁, result, S₁, view₁⟩
    · exact .inl ⟨⟨[], op, ops, [], s, rfl, rfl, touched⟩, by rw [result]; rfl⟩
    · have later_iff : s.TouchedBy K (op :: ops) ↔ s₁.TouchedBy K ops := by
        constructor
        · rintro ⟨before, op', later, answers, t, eq, run, touched⟩
          cases before with
          | nil =>
            obtain ⟨rfl, rfl⟩ := List.cons.inj eq
            cases run
            exact absurd touched untouched
          | cons op₁ before =>
            obtain ⟨rfl, rfl⟩ := List.cons.inj eq
            rw [MapState.execAll, result, Option.bind_some, Option.map_eq_some_iff] at run
            obtain ⟨u, run, same⟩ := run
            obtain ⟨-, rfl⟩ := Prod.mk.inj same
            exact ⟨before, op', later, u.1, u.2, rfl, run, touched⟩
        · rintro ⟨before, op', later, answers, t, rfl, run, touched⟩
          refine ⟨op :: before, op', later, (s.view.exec K op).1 :: answers, t, rfl, ?_, touched⟩
          rw [MapState.execAll, result, Option.bind_some, run]
          rfl
      have grows := s.view.exec_grows (K := K) op
      rw [← view₁] at grows
      obtain ⟨records, iterators⟩ := grows
      rw [s₁.view_entries_length, s.view_entries_length] at records
      change s₁.nextIterator ≤ s.nextIterator + 1 at iterators
      rw [later_iff, result, Option.bind_some, OrderedMap.execAll]
      rcases ih S₁ ⟨by omega, by omega⟩ with ⟨touched, none_left⟩ | ⟨untouched₁, s', run, S', view⟩
      · exact .inl ⟨touched, by rw [none_left]; rfl⟩
      · rw [view₁] at run view
        exact .inr ⟨untouched₁, s', by rw [run]; rfl, S', view⟩

theorem run_sound (K : Keys κ) (ops : List (Op κ V)) (short : ops.length < 2 ^ 30) :
    (MapState.init.TouchedBy K ops ∧ MapState.init.execAll K ops = none) ∨
      (¬MapState.init.TouchedBy K ops ∧ ∃ s', MapState.init.execAll K ops =
          some (((MapState.init : MapState κ V).view.execAll K ops).1, s') ∧ Sound K s' ∧
        s'.view = ((MapState.init : MapState κ V).view.execAll K ops).2) := by
  have records : (MapState.init : MapState κ V).nextRecord = 0 := rfl
  have iterators : (MapState.init : MapState κ V).nextIterator = 0 := rfl
  exact sound_init.execAll ops ⟨by omega, by omega⟩

/-- A string, a number, `NaN` and an object as keys, an iterator on the second, and the second
deleted under another spelling. -/
def shortRun : List (Op Key Nat) :=
  [.set ⟨.string [0x61], rfl⟩ 10 [], .set ⟨.int 1, rfl⟩ 20 [],
    .set ⟨.float64 Binary64.nan, rfl⟩ 30 [], .set ⟨.object 64, rfl⟩ 40 [], .iterate, .next 0,
    .next 0, .delete ⟨.float64 (Binary64.ofInt 1), rfl⟩ []]

/-- The value of the first key holds the iterator that stands on the deleted second one. -/
def clearRun : List (Op Key Nat) := shortRun ++ [.clear fun r => if r = 0 then [0] else []]

theorem shortRun_untouched : ¬MapState.init.TouchedBy scriptKeys shortRun := by
  rcases run_sound scriptKeys shortRun (by decide) with ⟨-, fails⟩ | ⟨untouched, -⟩
  · have done : (MapState.init.execAll scriptKeys shortRun).isSome = true := by decide
    rw [fails] at done
    cases done
  · exact untouched

/-- From an empty map every run answers as entries with cursors do, and leaves the map showing the
same entries, exactly if none of its calls touches a freed record. -/
theorem run_shows_iff (K : Keys κ) (ops : List (Op κ V)) (short : ops.length < 2 ^ 30) :
    (MapState.init.execAll K ops).map (fun t => (t.1, t.2.view)) =
        some (OrderedMap.init.execAll K ops) ↔
      ¬MapState.init.TouchedBy K ops := by
  have empty : (MapState.init : MapState κ V).view = OrderedMap.init := rfl
  rcases run_sound K ops short with
    ⟨touched, result⟩ | ⟨untouched, s', run, -, view⟩
  · rw [result]
    exact iff_of_false (fun eq => by cases eq) (not_not.mpr touched)
  · refine iff_of_true ?_ untouched
    rw [run, Option.map_some, view, empty]

theorem run_shows_iff_short :
    (MapState.init.execAll scriptKeys shortRun).map (fun t => (t.1, t.2.view)) =
      some (OrderedMap.init.execAll scriptKeys shortRun) :=
  (run_shows_iff scriptKeys shortRun (by decide)).mpr shortRun_untouched

/-- A run fails exactly if one of its calls touches a freed record: a `clear`, or a `forEach` after
its callback, whose frees finalize the last iterator on the empty record that is next. -/
theorem run_fails_iff (K : Keys κ) (ops : List (Op κ V)) (short : ops.length < 2 ^ 30) :
    MapState.init.execAll K ops = none ↔ MapState.init.TouchedBy K ops := by
  rcases run_sound K ops short with
    ⟨touched, result⟩ | ⟨untouched, s', run, -, -⟩
  · exact iff_of_true result touched
  · rw [run]
    exact iff_of_false (fun eq => by cases eq) untouched

theorem run_fails_iff_clear : MapState.init.TouchedBy scriptKeys clearRun :=
  (run_fails_iff scriptKeys clearRun (by decide)).mp (by decide)

/-- What a map holds in memory after a run. -/
structure Exact (K : Keys κ) (s : MapState κ V) : Prop where
  /-- A record is there as long as it has an entry or an iterator is on it. -/
  memory : ∀ r, (s.record r).isSome = true ↔ (s.entryAt r).isSome = true ∨ ∃ i, s.Stands i r
  listed : ∀ r, r ∈ s.records ↔ (s.record r).isSome = true
  counted : ∀ r mr, s.record r = some mr →
    mr.refCount = mr.entry.toList.length + s.locks r
  /-- A record with an entry is in the bucket of its key, no other record is in any. -/
  filed : ∀ b r, (s.hashTable.getD b []).count r =
    if slotOf K s.entryAt s.hashTable.length r = some b then 1 else 0
  distinct : Distinct K s.entryAt
  load : size s.view.entries < max 4 (s.hashTable.length * 2)

theorem memory_exact (K : Keys κ) (ops : List (Op κ V)) (short : ops.length < 2 ^ 30)
    (answers : List (Answer κ V)) (s : MapState κ V)
    (run : MapState.init.execAll K ops = some (answers, s)) : Exact K s := by
  have S : Sound K s := by
    rcases run_sound K ops short with ⟨-, result⟩ | ⟨-, s', run', S', -⟩
    · rw [run] at result
      cases result
    · rw [run] at run'
      obtain ⟨-, rfl⟩ := Prod.mk.inj (Option.some.inj run')
      exact S'
  constructor
  case memory => exact fun r => (S.held.listed r).symm.trans S.held.mem_iff
  case listed => exact S.held.listed
  case counted => exact fun r mr at_r => (S.held.counts r mr at_r).1
  case filed =>
    intro b r
    obtain ⟨nodup, mem_iff⟩ := S.hashed.filed b
    split_ifs with here
    · exact List.count_eq_one_of_mem nodup ((mem_iff r).mpr here)
    · exact List.count_eq_zero.mpr fun mem => here ((mem_iff r).mp mem)
  case distinct => exact S.hashed.distinct
  case load =>
    obtain ⟨m, -, -, threshold⟩ := S.hashed.sized
    have load := S.hashed.load
    rw [S.hashed.count, threshold] at load
    exact load

theorem memory_exact_short : ∃ answers s,
    MapState.init.execAll scriptKeys shortRun = some (answers, s) ∧ Exact scriptKeys s := by
  have done : (MapState.init.execAll scriptKeys shortRun).isSome = true := by decide
  obtain ⟨t, run⟩ := Option.isSome_iff_exists.mp done
  exact ⟨t.1, t.2, run, memory_exact scriptKeys shortRun (by decide) t.1 t.2 run⟩

end Maps
