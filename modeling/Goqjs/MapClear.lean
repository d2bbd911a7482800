import Goqjs.MapIterators

/-!
# Clearing a map

`js_map_clear` reads the next record before it deletes one. What is deleted can be the last holder
of an iterator, and that iterator the last holder of the next record.
-/

namespace Maps

open OrderedMaps

variable {κ V : Type} {K : Keys κ} {s t : MapState κ V} {r z i : Nat} {freed : Nat → List Nat}

/-- The iterators that are finalized with the entries in front of a record. -/
def freedBefore (s : MapState κ V) (freed : Nat → List Nat) (r : Nat) : List Nat :=
  s.records.flatMap fun y => if y < r ∧ (s.entryAt y).isSome then freed y else []

/-- With the entry of this record the next record in the list is freed. -/
def FreesNext (s : MapState κ V) (freed : Nat → List Nat) (r : Nat) : Prop :=
  (s.entryAt r).isSome = true ∧ ∃ z ∈ s.records, r < z ∧
    (∀ y ∈ s.records, r < y → y < z → Freed s (freedBefore s freed r) y) ∧
    ¬Freed s (freedBefore s freed r) z ∧ Freed s (freedBefore s freed (r + 1)) z

theorem mem_freedBefore : i ∈ freedBefore s freed r ↔
    ∃ y ∈ s.records, y < r ∧ (s.entryAt y).isSome = true ∧ i ∈ freed y := by
  rw [freedBefore, List.mem_flatMap]
  constructor
  · rintro ⟨y, mem, freed_y⟩
    split_ifs at freed_y with front
    · exact ⟨y, mem, front.1, front.2, freed_y⟩
    · cases freed_y
  · rintro ⟨y, mem, less, live, freed_y⟩
    exact ⟨y, mem, by rwa [if_pos ⟨less, live⟩]⟩

theorem closed_congr {l m : List Nat} (same : ∀ i, i ∈ l ↔ i ∈ m)
    (its : Nat → Option MapIterator) : closed l its = closed m its := by
  funext i
  simp only [closed, same i]

/-- Where no record has an entry nothing is freed. -/
theorem closed_freedBefore (s : MapState κ V) (freed : Nat → List Nat) (le : r ≤ z)
    (dead : ∀ y ∈ s.records, r ≤ y → y < z → s.entryAt y = none) :
    closed (freedBefore s freed z) s.iterators = closed (freedBefore s freed r) s.iterators := by
  apply closed_congr
  intro i
  rw [mem_freedBefore, mem_freedBefore]
  constructor
  · rintro ⟨y, mem, less, live, freed_y⟩
    refine ⟨y, mem, ?_, live, freed_y⟩
    by_contra behind
    rw [dead y mem (Nat.le_of_not_lt behind) less] at live
    cases live
  · rintro ⟨y, mem, less, live, freed_y⟩
    exact ⟨y, mem, Nat.lt_of_lt_of_le less le, live, freed_y⟩

/-- With the entry of one more record. -/
theorem closed_freedBefore_succ (mem : r ∈ s.records) (live : (s.entryAt r).isSome = true) :
    closed (freedBefore s freed (r + 1)) s.iterators =
      closed (freed r) (closed (freedBefore s freed r) s.iterators) := by
  rw [← closed_append]
  apply closed_congr
  intro i
  rw [List.mem_append, mem_freedBefore, mem_freedBefore]
  constructor
  · rintro ⟨y, mem_y, less, live_y, freed_y⟩
    rcases Nat.lt_succ_iff_lt_or_eq.mp less with less | rfl
    · exact .inl ⟨y, mem_y, less, live_y, freed_y⟩
    · exact .inr freed_y
  · rintro (⟨y, mem_y, less, live_y, freed_y⟩ | freed_r)
    · exact ⟨y, mem_y, Nat.lt_succ_of_lt less, live_y, freed_y⟩
    · exact ⟨r, mem, Nat.lt_succ_self r, live, freed_r⟩

/-- The entries in front of a record are deleted, and what they held is finalized. -/
def Cleared (s : MapState κ V) (freed : Nat → List Nat) (r : Nat) (t : MapState κ V) : Prop :=
  Shows t (fun y => if y < r then none else s.entryAt y) s.nextRecord
    (closed (freedBefore s freed r) s.iterators) s.nextIterator

theorem Cleared.entryAt (C : Cleared s freed r t) (le : r ≤ z) : t.entryAt z = s.entryAt z := by
  rw [C.entries]
  exact if_neg (Nat.not_lt.mpr le)

theorem Cleared.mem_iff (C : Cleared s freed r t) (T : Held t) (le : r ≤ z) :
    z ∈ t.records ↔ ¬Freed s (freedBefore s freed r) z :=
  T.mem_iff_not_freed (C.entryAt le) fun i => by rw [C.iterators]

/-- Records between two that the loop comes to have no entries. -/
theorem Cleared.jump (C : Cleared s freed r t) (le : r ≤ z)
    (dead : ∀ y, r ≤ y → y < z → s.entryAt y = none) : Cleared s freed z t := by
  refine ⟨?_, C.nextRecord, ?_, C.nextIterator⟩
  · rw [C.entries]
    funext y
    by_cases front : y < r
    · rw [if_pos front, if_pos (Nat.lt_of_lt_of_le front le)]
    · rw [if_neg front]
      split_ifs with less
      · exact dead y (Nat.le_of_not_lt front) less
      · rfl
  · rw [C.iterators, closed_freedBefore s freed le fun y _ => dead y]

/-- One turn of the loop: the record that it is at loses its entry. -/
theorem Cleared.one (C : Cleared s freed r t) (T : Sound K t)
    (mem : r ∈ s.records) (there : r ∈ t.records) :
    ∃ t', t.mapDeleteRecord r (freed r) = some t' ∧ Sound K t' ∧ Cleared s freed (r + 1) t' := by
  have at_r := C.entryAt (Nat.le_refl r)
  cases entry : s.entryAt r with
  | none =>
    obtain ⟨mr, at_t⟩ := Option.isSome_iff_exists.mp ((T.held.listed r).mp there)
    rw [entry, MapState.entryAt, at_t, Option.bind_some] at at_r
    refine ⟨t, ?_, T, C.jump (Nat.le_succ r) fun y le less => ?_⟩
    · rw [MapState.mapDeleteRecord, at_t]
      simp [at_r]
    · obtain rfl : y = r := Nat.le_antisymm (Nat.le_of_lt_succ less) le
      exact entry
  | some e =>
    rw [entry] at at_r
    obtain ⟨t', deleted, T', shown⟩ := T.mapDeleteRecord at_r (freed r)
    refine ⟨t', deleted, T', ?_, shown.nextRecord.trans C.nextRecord, ?_,
      shown.nextIterator.trans C.nextIterator⟩
    · rw [shown.entries, C.entries]
      funext y
      rcases Nat.lt_trichotomy y r with less | rfl | more
      · rw [Function.update_of_ne (Nat.ne_of_lt less), if_pos less,
          if_pos (Nat.lt_succ_of_lt less)]
      · rw [Function.update_self, if_pos (Nat.lt_succ_self y)]
      · rw [Function.update_of_ne (Nat.ne_of_gt more), if_neg (Nat.not_lt.mpr (Nat.le_of_lt more)),
          if_neg (Nat.not_lt.mpr more)]
    · rw [shown.iterators, C.iterators, closed_freedBefore_succ mem (by rw [entry]; rfl)]

theorem Cleared.subset (C : Cleared s freed r t) (S : Held s) (T : Held t) :
    t.records ⊆ s.records := by
  intro z mem
  rcases T.mem_iff.mp mem with live | ⟨i, on_z⟩
  · rw [C.entries] at live
    apply S.mem_iff.mpr
    by_cases front : z < r
    · simp [front] at live
    · simp only [front, if_false] at live
      exact .inl live
  · rw [MapState.Stands, C.iterators, closed] at on_z
    apply S.there i
    split_ifs at on_z with closing
    · cases at_i : s.iterators i with
      | none =>
        rw [at_i] at on_z
        cases on_z
      | some it =>
        rw [at_i, Option.filter_some] at on_z
        split_ifs at on_z with frame
        · rw [MapState.Stands, at_i]
          exact on_z
        · cases on_z
    · exact on_z

theorem length_filter_lt (mem : z ∈ s.records) (less : r < z) :
    (s.records.filter fun y => decide (z < y)).length <
      (s.records.filter fun y => decide (r < y)).length := by
  have sub : (s.records.filter fun y => decide (z < y)) =
      (s.records.filter fun y => decide (r < y)).filter fun y => decide (z < y) := by
    rw [List.filter_filter]
    apply List.filter_congr
    intro y _
    rw [Bool.eq_iff_iff, Bool.and_eq_true, decide_eq_true_iff, decide_eq_true_iff]
    omega
  rw [sub]
  exact List.length_filter_lt_length_iff_exists.mpr
    ⟨z, List.mem_filter.mpr ⟨mem, decide_eq_true less⟩, by simp⟩

/-- Entries behind a record are still in the list behind it. -/
theorem Cleared.behind (C : Cleared s freed r t) (T : Held t) (there : r ∈ t.records)
    (less : r < z) (live : (s.entryAt z).isSome = true) : z ∈ after r t.records := by
  rw [T.mem_after there]
  refine ⟨T.mem_iff.mpr (.inl ?_), less⟩
  rw [C.entryAt (Nat.le_of_lt less)]
  exact live

/-- Up to the next record in the list there are no entries. -/
theorem Cleared.dead_between (C : Cleared s freed r t) (T : Held t) (there : r ∈ t.records)
    (least : ∀ y ∈ after r t.records, z ≤ y) :
    ∀ y, r + 1 ≤ y → y < z → s.entryAt y = none := by
  intro y more front
  cases at_y : s.entryAt y with
  | none => rfl
  | some e =>
    have := least y (C.behind T there more (by rw [at_y]; rfl))
    omega

/-- The loop ends at the last record of the list. -/
theorem Cleared.last (C : Cleared s freed r t) (T : Held t) (there : r ∈ t.records)
    (empty : after r t.records = []) :
    (∀ y, r + 1 ≤ y → s.entryAt y = none) ∧
      ¬∃ y ∈ s.records, r ≤ y ∧ FreesNext s freed y := by
  have dead : ∀ y, r + 1 ≤ y → s.entryAt y = none := fun y more =>
    C.dead_between (z := y + 1) T there (by rw [empty]; exact nofun) y more (Nat.lt_succ_self y)
  refine ⟨dead, ?_⟩
  rintro ⟨y, -, le, live, z, -, less, -, held, -⟩
  rcases Nat.eq_or_lt_of_le le with rfl | more
  · have there_z := (C.mem_iff T (Nat.le_of_lt less)).mpr held
    have later := (T.mem_after there).mpr ⟨there_z, less⟩
    rw [empty] at later
    cases later
  · rw [dead y more] at live
    cases live

/-- The next record of the list goes with the entry of this one. -/
theorem Cleared.freesNext (C : Cleared s freed r t) (S : Held s) (T : Held t)
    (there : r ∈ t.records) (listed : z ∈ after r t.records)
    (least : ∀ y ∈ after r t.records, z ≤ y)
    (gone : Freed s (freedBefore s freed (r + 1)) z) : FreesNext s freed r := by
  obtain ⟨there_z, less⟩ := (T.mem_after there).mp listed
  have held := (C.mem_iff T (Nat.le_of_lt less)).mp there_z
  refine ⟨?_, z, C.subset S T there_z, less, fun y _ more front => ?_, held, gone⟩
  · cases at_r : s.entryAt r with
    | some e => rfl
    | none =>
      have same := closed_freedBefore s freed (Nat.le_succ r) (by
        intro y _ le front
        obtain rfl : y = r := Nat.le_antisymm (Nat.le_of_lt_succ front) le
        exact at_r)
      rw [Freed, same] at gone
      exact absurd gone held
  · by_contra held_y
    have there_y := (C.mem_iff T (Nat.le_of_lt more)).mpr held_y
    have := least y ((T.mem_after there).mpr ⟨there_y, more⟩)
    omega

/-- No record frees the next one when the loop gets past it. -/
theorem Cleared.not_freesNext (C : Cleared s freed r t) (S : Held s) (T : Held t)
    (there : r ∈ t.records) (listed : z ∈ after r t.records)
    (least : ∀ y ∈ after r t.records, z ≤ y)
    (stays : ¬Freed s (freedBefore s freed (r + 1)) z) : ¬FreesNext s freed r := by
  obtain ⟨there_z, less⟩ := (T.mem_after there).mp listed
  rintro ⟨-, z', mem', less', between, held, gone⟩
  have there' : z' ∈ t.records := (C.mem_iff T (Nat.le_of_lt less')).mpr held
  rcases Nat.eq_or_lt_of_le (least z' ((T.mem_after there).mpr ⟨there', less'⟩)) with rfl | more
  · exact stays gone
  · obtain ⟨dead, alone⟩ := between z (C.subset S T there_z) less more
    exact (C.mem_iff T (Nat.le_of_lt less)).mp there_z ⟨dead, alone⟩

/-- The loop from a record on. -/
theorem Cleared.loop (S : Held s) (fuel : Nat) (C : Cleared s freed r t) (T : Sound K t)
    (mem : r ∈ s.records) (there : r ∈ t.records)
    (enough : (s.records.filter fun y => decide (r < y)).length + 2 ≤ fuel) :
    ((∃ y ∈ s.records, r ≤ y ∧ FreesNext s freed y) ∧
        MapState.clearFrom freed fuel t (some r) = none) ∨
      ((¬∃ y ∈ s.records, r ≤ y ∧ FreesNext s freed y) ∧
        ∃ t', MapState.clearFrom freed fuel t (some r) = some t' ∧ Sound K t' ∧
          Cleared s freed s.nextRecord t') := by
  induction fuel generalizing r t with
  | zero => omega
  | succ fuel ih =>
    obtain ⟨t', deleted, T', C'⟩ := C.one T mem there
    have step : MapState.clearFrom freed (fuel + 1) t (some r) =
        MapState.clearFrom freed fuel t' (after r t.records).head? := by
      have link : t.linkNext r = some (after r t.records).head? := if_pos there
      rw [MapState.clearFrom, link, Option.bind_some, deleted, Option.bind_some]
    obtain ⟨fuel, rfl⟩ : ∃ f, fuel = f + 1 := ⟨fuel - 1, by omega⟩
    rw [step]
    cases head : (after r t.records).head? with
    | none =>
      obtain ⟨dead, no_more⟩ := C.last T.held there (List.head?_eq_none_iff.mp head)
      exact .inr ⟨no_more, t', rfl, T',
        C'.jump (S.below r mem) fun y more _ => dead y more⟩
    | some z =>
      obtain ⟨listed, least⟩ := head?_least (T.held.sorted_after there) head
      obtain ⟨there_z, less⟩ := (T.held.mem_after there).mp listed
      have mem_z := C.subset S T.held there_z
      have dead := C.dead_between T.held there least
      by_cases gone : Freed s (freedBefore s freed (r + 1)) z
      · have absent : z ∉ t'.records := fun there => (C'.mem_iff T'.held less).mp there gone
        refine .inl ⟨⟨r, mem, Nat.le_refl r, C.freesNext S T.held there listed least gone⟩, ?_⟩
        rw [MapState.clearFrom, MapState.linkNext, if_neg absent]
        rfl
      · have there' := (C'.mem_iff T'.held less).mpr gone
        have shorter := length_filter_lt mem_z less
        have none_here := C.not_freesNext S T.held there listed least gone
        have same : (∃ y ∈ s.records, r ≤ y ∧ FreesNext s freed y) ↔
            ∃ y ∈ s.records, z ≤ y ∧ FreesNext s freed y := by
          constructor
          · rintro ⟨y, mem_y, le, frees⟩
            refine ⟨y, mem_y, ?_, frees⟩
            rcases Nat.eq_or_lt_of_le le with rfl | more
            · exact absurd frees none_here
            · by_contra front
              have := dead y more (Nat.lt_of_not_le front)
              rw [FreesNext, this] at frees
              cases frees.1
          · rintro ⟨y, mem_y, le, frees⟩
            exact ⟨y, mem_y, Nat.le_of_lt (Nat.lt_of_lt_of_le less le), frees⟩
        rw [same]
        exact ih (C'.jump less dead) T' mem_z there' (by omega)

/-- `js_map_clear` frees all entries, or touches a record that it has freed. -/
theorem Sound.jsMapClear (S : Sound K s) (freed : Nat → List Nat) :
    ((∃ r ∈ s.records, FreesNext s freed r) ∧ s.jsMapClear freed = none) ∨
      ((¬∃ r ∈ s.records, FreesNext s freed r) ∧
        ∃ s', s.jsMapClear freed = some s' ∧ Sound K s' ∧ Cleared s freed s.nextRecord s') := by
  have start : Cleared s freed 0 s := by
    refine ⟨?_, rfl, ?_, rfl⟩
    · funext y
      rw [if_neg (Nat.not_lt_zero y)]
    · have nothing : freedBefore s freed 0 = [] := by
        simp [freedBefore]
      rw [nothing, closed_nil]
  rw [MapState.jsMapClear]
  cases records : s.records with
  | nil =>
    refine .inr ⟨fun frees => ?_, s, rfl, S, ?_⟩
    · obtain ⟨r, mem, -⟩ := frees
      cases mem
    · apply start.jump (Nat.zero_le _)
      intro y _ _
      cases at_y : s.entryAt y with
      | none => rfl
      | some e =>
        have mem := S.held.mem_iff.mpr (.inl (by rw [at_y]; rfl))
        rw [records] at mem
        cases mem
  | cons r l =>
    have mem : r ∈ s.records := by
      rw [records]
      exact List.mem_cons_self
    have first : ∀ y ∈ s.records, r ≤ y :=
      (head?_least S.held.sorted (by rw [records]; rfl)).2
    have C : Cleared s freed r s := by
      apply start.jump (Nat.zero_le r)
      intro y _ front
      cases at_y : s.entryAt y with
      | none => rfl
      | some e =>
        have := first y (S.held.mem_iff.mpr (.inl (by rw [at_y]; rfl)))
        omega
    have shorter : (s.records.filter fun y => decide (r < y)).length < s.records.length :=
      List.length_filter_lt_length_iff_exists.mpr ⟨r, mem, by simp⟩
    have all : (∃ y ∈ s.records, r ≤ y ∧ FreesNext s freed y) ↔
        ∃ y ∈ s.records, FreesNext s freed y := by
      constructor
      · rintro ⟨y, mem_y, -, frees⟩
        exact ⟨y, mem_y, frees⟩
      · rintro ⟨y, mem_y, frees⟩
        exact ⟨y, mem_y, first y mem_y, frees⟩
    have run := C.loop S.held (s.records.length + 1) S mem mem (by omega)
    rw [all, records] at run
    exact run

end Maps
