import Goqjs.Maps
import Goqjs.OrderedMaps
import Goqjs.ReferenceGraph

/-!
# The records of a map and who holds them

A record is held by its entry and by every iterator that is on it. It is in the list as long as it
is held, and its count says how often it is.
-/

namespace Maps

open OrderedMaps ReferenceGraph

variable {κ V : Type} {K : Keys κ} {s s' : MapState κ V} {r t i j : Nat} {it : MapIterator}
  {x : Option MapIterator} {mr : MapRecord κ V} {freed : List Nat}

/-- The record that an iterator has locked. -/
def lockOf : Option MapIterator → List Nat
  | some ⟨_, .on r⟩ => [r]
  | _ => []

namespace MapState

def Stands (s : MapState κ V) (i r : Nat) : Prop := lockOf (s.iterators i) = [r]

def locks (s : MapState κ V) (r : Nat) : Nat :=
  (heldBy (fun i => lockOf (s.iterators i)) (List.range s.nextIterator)).count r

end MapState

/-- Records are held as their counts say. -/
structure Held (s : MapState κ V) : Prop where
  sorted : s.records.Pairwise (· < ·)
  listed : ∀ r, r ∈ s.records ↔ (s.record r).isSome = true
  below : ∀ r ∈ s.records, r < s.nextRecord
  counts : ∀ r mr, s.record r = some mr →
    mr.refCount = mr.entry.toList.length + s.locks r ∧ 0 < mr.refCount
  there : ∀ i r, s.Stands i r → r ∈ s.records
  fresh : ∀ i, s.nextIterator ≤ i → s.iterators i = none

/-- The map itself is left alone. -/
structure Kept (s s' : MapState κ V) : Prop where
  entries : s'.entryAt = s.entryAt
  table : s'.hashTable = s.hashTable
  count : s'.recordCount = s.recordCount
  threshold : s'.recordCountThreshold = s.recordCountThreshold
  nextRecord : s'.nextRecord = s.nextRecord
  nextIterator : s'.nextIterator = s.nextIterator

theorem Kept.refl (s : MapState κ V) : Kept s s := ⟨rfl, rfl, rfl, rfl, rfl, rfl⟩

theorem Kept.trans {s'' : MapState κ V} (a : Kept s s') (b : Kept s' s'') : Kept s s'' where
  entries := b.entries.trans a.entries
  table := b.table.trans a.table
  count := b.count.trans a.count
  threshold := b.threshold.trans a.threshold
  nextRecord := b.nextRecord.trans a.nextRecord
  nextIterator := b.nextIterator.trans a.nextIterator

theorem lockOf_subsingleton (mem : r ∈ lockOf x) : lockOf x = [r] := by
  rcases x with - | ⟨f, - | u | -⟩
  · cases mem
  · cases mem
  · obtain rfl := List.mem_singleton.mp mem
    rfl
  · cases mem

theorem length_lockOf_le (x : Option MapIterator) : (lockOf x).length ≤ 1 := by
  rcases x with - | ⟨f, - | u | -⟩
  · exact Nat.zero_le 1
  · exact Nat.zero_le 1
  · exact Nat.le_refl 1
  · exact Nat.zero_le 1

/-- A record has no more locks than there were iterators. -/
theorem locks_le (s : MapState κ V) (r : Nat) : s.locks r ≤ s.nextIterator := by
  refine List.count_le_length.trans ?_
  have most : (heldBy _ (List.range s.nextIterator)).length ≤ _ :=
    length_heldBy_le fun i _ => length_lockOf_le (s.iterators i)
  rwa [List.length_range] at most

theorem stands_on {forEach : Bool} (at_i : s.iterators i = some ⟨forEach, .on r⟩) :
    s.Stands i r := by
  rw [MapState.Stands, at_i]
  rfl

theorem Held.lt_of_stands (H : Held s) (on_r : s.Stands i r) : i < s.nextIterator := by
  by_contra outside
  rw [MapState.Stands, H.fresh i (Nat.le_of_not_lt outside)] at on_r
  cases on_r

theorem locks_pos_of_stands (lt : i < s.nextIterator) (on_r : s.Stands i r) : 0 < s.locks r := by
  rw [MapState.locks, List.count_pos_iff, mem_heldBy]
  refine ⟨i, List.mem_range.mpr lt, ?_⟩
  rw [show lockOf (s.iterators i) = [r] from on_r]
  exact List.mem_singleton_self r

theorem Held.locks_pos (H : Held s) : 0 < s.locks r ↔ ∃ i, s.Stands i r := by
  constructor
  · intro pos
    rw [MapState.locks, List.count_pos_iff, mem_heldBy] at pos
    obtain ⟨i, -, mem⟩ := pos
    exact ⟨i, lockOf_subsingleton mem⟩
  · rintro ⟨i, on_r⟩
    exact locks_pos_of_stands (H.lt_of_stands on_r) on_r

/-- A record is in the list if it has an entry or an iterator on it. -/
theorem Held.mem_iff (H : Held s) :
    r ∈ s.records ↔ (s.entryAt r).isSome = true ∨ ∃ i, s.Stands i r := by
  constructor
  · intro mem
    obtain ⟨mr, at_r⟩ := Option.isSome_iff_exists.mp ((H.listed r).mp mem)
    obtain ⟨count, pos⟩ := H.counts r mr at_r
    rw [MapState.entryAt, at_r, Option.bind_some]
    cases entry : mr.entry with
    | some e => exact .inl rfl
    | none =>
      rw [entry, Option.toList_none, List.length_nil] at count
      exact .inr (H.locks_pos.mp (by omega))
  · rintro (live | ⟨i, on_r⟩)
    · rw [H.listed]
      cases at_r : s.record r with
      | none => simp [MapState.entryAt, at_r] at live
      | some mr => rfl
    · exact H.there i r on_r

theorem Held.nodup (H : Held s) : s.records.Nodup := H.sorted.imp Nat.ne_of_lt

theorem Held.lt_of_entry (H : Held s) (live : (s.entryAt r).isSome = true) : r < s.nextRecord :=
  H.below r (H.mem_iff.mpr (.inl live))

/-- What one iterator adds to the locks of a record. -/
theorem locks_putIterator (lt : i < s.nextIterator) (x : Option MapIterator) (r : Nat) :
    (s.putIterator i x).locks r + (lockOf (s.iterators i)).count r =
      s.locks r + (lockOf x).count r := by
  have others : ∀ j ∈ List.range s.nextIterator, j ≠ i →
      lockOf ((s.putIterator i x).iterators j) = lockOf (s.iterators j) := by
    intro j _ ne
    rw [MapState.putIterator_iterators, Function.update_of_ne ne]
  have self : lockOf ((s.putIterator i x).iterators i) = lockOf x := by
    rw [MapState.putIterator_iterators, Function.update_self]
  have count := (heldBy_change _ _ List.nodup_range (List.mem_range.mpr lt) others).count_eq r
  rw [List.count_append, List.count_append, self] at count
  exact count

theorem stands_putIterator : (s.putIterator i x).Stands j r ↔
    (if j = i then lockOf x else lockOf (s.iterators j)) = [r] := by
  rw [MapState.Stands, MapState.putIterator_iterators]
  split_ifs with self
  · rw [self, Function.update_self]
  · rw [Function.update_of_ne self]

theorem stands_putIterator_of_free (free : lockOf x = []) :
    (s.putIterator i x).Stands j r ↔ j ≠ i ∧ s.Stands j r := by
  rw [stands_putIterator, free]
  split_ifs with self
  · simp [self]
  · exact ⟨fun on_r => ⟨self, on_r⟩, And.right⟩

/-- An iterator is placed elsewhere, and the records that it has locked get counted anew. -/
theorem Held.move {records : List Nat} {record : Nat → Option (MapRecord κ V)} (H : Held s)
    (lt : i < s.nextIterator) (sorted : records.Pairwise (· < ·))
    (listed : ∀ r, r ∈ records ↔ (record r).isSome = true) (sub : records ⊆ s.records)
    (counts : ∀ r mr, record r = some mr → ∃ old, s.record r = some old ∧ mr.entry = old.entry ∧
      mr.refCount + (lockOf (s.iterators i)).count r = old.refCount + (lockOf x).count r ∧
      0 < mr.refCount)
    (there : ∀ j r, (s.putIterator i x).Stands j r → r ∈ records) :
    Held { s.putIterator i x with records := records, record := record } where
  sorted := sorted
  listed := listed
  below := fun r mem => H.below r (sub mem)
  counts := by
    intro r mr at_r
    obtain ⟨old, at_old, entry, count, pos⟩ := counts r mr at_r
    have before := (H.counts r old at_old).1
    have locks := locks_putIterator lt x r
    refine ⟨?_, pos⟩
    change mr.refCount = mr.entry.toList.length + (s.putIterator i x).locks r
    rw [entry]
    omega
  there := there
  fresh := by
    intro j outside
    have : j ≠ i := by
      rintro rfl
      exact absurd lt (Nat.not_lt.mpr outside)
    change Function.update s.iterators i x j = none
    rw [Function.update_of_ne this]
    exact H.fresh j outside

theorem Held.record_of_stands (H : Held s) (on_r : s.Stands i r) :
    ∃ mr, s.record r = some mr ∧ 0 < s.locks r ∧ r ∈ s.records := by
  have mem := H.there i r on_r
  obtain ⟨mr, at_r⟩ := Option.isSome_iff_exists.mp ((H.listed r).mp mem)
  exact ⟨mr, at_r, H.locks_pos.mpr ⟨i, on_r⟩, mem⟩

/-- An iterator that goes where it locks nothing. -/
theorem Held.unlock (H : Held s) (lt : i < s.nextIterator) (off : lockOf (s.iterators i) = [])
    (free : lockOf x = []) : Held (s.putIterator i x) := by
  apply H.move lt H.sorted H.listed (List.Subset.refl _)
  · intro r mr at_r
    refine ⟨mr, at_r, rfl, ?_, (H.counts r mr at_r).2⟩
    rw [off, free]
  · exact fun j r on_r => H.there j r ((stands_putIterator_of_free free).mp on_r).2

/-- The last iterator leaves a record without an entry. -/
theorem Held.leave_last (H : Held s) (on_r : s.Stands i r) (free : lockOf x = [])
    (at_r : s.record r = some mr) (last : mr.refCount = 1) :
    Held ((s.freeRecord r).putIterator i x) := by
  have lt := H.lt_of_stands on_r
  have count := (H.counts r mr at_r).1
  have pos := H.locks_pos.mpr ⟨i, on_r⟩
  have alone : (s.putIterator i x).locks r = 0 := by
    have locks := locks_putIterator lt x r
    rw [show lockOf (s.iterators i) = [r] from on_r, free, List.count_singleton_self,
      List.count_nil] at locks
    omega
  apply H.move lt (H.sorted.sublist List.erase_sublist)
  · intro t
    rw [H.nodup.mem_erase_iff, H.listed, MapState.freeRecord_record]
    rcases eq_or_ne t r with rfl | ne
    · simp
    · simp [ne]
  · exact List.erase_subset
  · intro t mt at_t
    rw [MapState.freeRecord_record] at at_t
    rcases eq_or_ne t r with rfl | ne
    · rw [Function.update_self] at at_t
      cases at_t
    · rw [Function.update_of_ne ne] at at_t
      refine ⟨mt, at_t, rfl, ?_, (H.counts t mt at_t).2⟩
      rw [show lockOf (s.iterators i) = [r] from on_r, free, List.count_nil,
        List.count_singleton]
      simp [ne.symm]
  · intro j t on_t
    have before := (stands_putIterator_of_free free).mp on_t
    rw [H.nodup.mem_erase_iff]
    refine ⟨?_, H.there j t before.2⟩
    rintro rfl
    have := locks_pos_of_stands (s := s.putIterator i x) (H.lt_of_stands before.2) on_t
    omega

/-- Another iterator, or its entry, still holds the record that an iterator leaves. -/
theorem Held.leave_others (H : Held s) (on_r : s.Stands i r) (free : lockOf x = [])
    (at_r : s.record r = some mr) (others : mr.refCount ≠ 1) :
    Held ((s.putRecord r { mr with refCount := mr.refCount - 1 }).putIterator i x) := by
  have lt := H.lt_of_stands on_r
  have pos := (H.counts r mr at_r).2
  apply H.move lt H.sorted
  · intro t
    rw [H.listed, MapState.putRecord_record]
    rcases eq_or_ne t r with rfl | ne
    · simp [at_r]
    · simp [ne]
  · exact List.Subset.refl _
  · intro t mt at_t
    rw [MapState.putRecord_record] at at_t
    rw [show lockOf (s.iterators i) = [r] from on_r, free, List.count_nil, List.count_singleton]
    rcases eq_or_ne t r with rfl | ne
    · rw [Function.update_self] at at_t
      obtain rfl := Option.some.inj at_t
      refine ⟨mr, at_r, rfl, ?_, ?_⟩
      · simp only [beq_self_eq_true, if_true]
        omega
      · change 0 < mr.refCount - 1
        omega
    · rw [Function.update_of_ne ne] at at_t
      refine ⟨mt, at_t, rfl, ?_, (H.counts t mt at_t).2⟩
      simp [ne.symm]
  · exact fun j t on_t => H.there j t ((stands_putIterator_of_free free).mp on_t).2

/-- An iterator leaves where it is. -/
theorem Held.leave (H : Held s) (at_i : s.iterators i = some it) (free : lockOf x = []) :
    ∃ s', s.leave i it.place x = some s' ∧ Held s' ∧ Kept s s' ∧
      s'.iterators = Function.update s.iterators i x := by
  have lt : i < s.nextIterator := by
    by_contra outside
    rw [H.fresh i (Nat.le_of_not_lt outside)] at at_i
    cases at_i
  obtain ⟨f, place⟩ := it
  cases place with
  | start =>
    exact ⟨_, rfl, H.unlock lt (by rw [at_i]; rfl) free, ⟨rfl, rfl, rfl, rfl, rfl, rfl⟩, rfl⟩
  | finished =>
    exact ⟨_, rfl, H.unlock lt (by rw [at_i]; rfl) free, ⟨rfl, rfl, rfl, rfl, rfl, rfl⟩, rfl⟩
  | on r =>
    have on_r : s.Stands i r := stands_on at_i
    obtain ⟨mr, at_r, pos, mem⟩ := H.record_of_stands on_r
    have count := (H.counts r mr at_r).1
    rw [MapState.leave, MapState.mapDecrefRecord, at_r]
    by_cases last : mr.refCount = 1
    · have empty : mr.entry = none := by
        cases entry : mr.entry with
        | none => rfl
        | some e =>
          rw [entry] at count
          simp only [Option.toList_some, List.length_singleton] at count
          omega
      refine ⟨(s.freeRecord r).putIterator i x, ?_, H.leave_last on_r free at_r last,
        ⟨?_, rfl, rfl, rfl, rfl, rfl⟩, rfl⟩
      · simp only [last, if_true, empty]
        rfl
      · funext t
        rw [MapState.putIterator_entryAt, MapState.entryAt, MapState.freeRecord_record]
        rcases eq_or_ne t r with rfl | ne
        · rw [Function.update_self, MapState.entryAt, at_r, Option.bind_some, empty]
          rfl
        · rw [Function.update_of_ne ne, MapState.entryAt]
    · refine ⟨(s.putRecord r { mr with refCount := mr.refCount - 1 }).putIterator i x, ?_,
        H.leave_others on_r free at_r last, ⟨?_, rfl, rfl, rfl, rfl, rfl⟩, rfl⟩
      · simp only [last, if_false]
        rfl
      · funext t
        rw [MapState.putIterator_entryAt, MapState.entryAt, MapState.putRecord_record]
        rcases eq_or_ne t r with rfl | ne
        · rw [Function.update_self, MapState.entryAt, at_r]
          rfl
        · rw [Function.update_of_ne ne, MapState.entryAt]

/-- Of these iterators only the calls of `forEach` are left. -/
def closed (freed : List Nat) (its : Nat → Option MapIterator) (i : Nat) : Option MapIterator :=
  if i ∈ freed then (its i).filter MapIterator.forEach else its i

theorem closed_nil (its : Nat → Option MapIterator) : closed [] its = its := by
  funext i
  simp [closed]

theorem closed_append (l m : List Nat) (its : Nat → Option MapIterator) :
    closed (l ++ m) its = closed m (closed l its) := by
  funext i
  by_cases in_l : i ∈ l <;> by_cases in_m : i ∈ m <;> simp [closed, in_l, in_m]

theorem Held.finalizer (H : Held s) (i : Nat) :
    ∃ s', s.mapIteratorFinalizer i = some s' ∧ Held s' ∧ Kept s s' ∧
      s'.iterators = closed [i] s.iterators := by
  have rest : ∀ x, (s.iterators i).filter MapIterator.forEach = x →
      closed [i] s.iterators = Function.update s.iterators i x := by
    rintro x rfl
    funext j
    rcases eq_or_ne j i with rfl | ne
    · simp [closed]
    · simp [closed, ne]
  rw [MapState.mapIteratorFinalizer]
  cases at_i : s.iterators i with
  | none =>
    refine ⟨s, rfl, H, .refl s, ?_⟩
    rw [rest none (by rw [at_i]; rfl), ← at_i, Function.update_eq_self]
  | some it =>
    by_cases frame : it.forEach = true
    · refine ⟨s, if_pos frame, H, .refl s, ?_⟩
      rw [rest (some it) (by rw [at_i, Option.filter_some, if_pos frame]), ← at_i,
        Function.update_eq_self]
    · obtain ⟨s', left, held, kept, iterators⟩ := H.leave at_i (x := none) rfl
      refine ⟨s', (if_neg frame).trans left, held, kept, ?_⟩
      rw [iterators, rest none (by rw [at_i, Option.filter_some, if_neg frame])]

theorem Held.freeValues (H : Held s) (freed : List Nat) :
    ∃ s', s.freeValues freed = some s' ∧ Held s' ∧ Kept s s' ∧
      s'.iterators = closed freed s.iterators := by
  induction freed generalizing s with
  | nil => exact ⟨s, rfl, H, .refl s, (closed_nil _).symm⟩
  | cons i l ih =>
    obtain ⟨s₁, first, held₁, kept₁, iterators₁⟩ := H.finalizer i
    obtain ⟨s₂, others, held₂, kept₂, iterators₂⟩ := ih held₁
    refine ⟨s₂, ?_, held₂, kept₁.trans kept₂, ?_⟩
    · rw [MapState.freeValues, first, Option.bind_some, others]
    · rw [iterators₂, iterators₁, ← closed_append]
      rfl

/-- A record is no longer held by its entry. -/
theorem Held.drop (H : Held s) (at_r : s.record r = some mr) (live : mr.entry.isSome = true) :
    Held (if mr.refCount = 1 then s.freeRecord r
      else s.putRecord r ⟨mr.refCount - 1, none⟩) := by
  obtain ⟨count, pos⟩ := H.counts r mr at_r
  obtain ⟨e, entry⟩ := Option.isSome_iff_exists.mp live
  rw [entry, Option.toList_some, List.length_singleton] at count
  split_ifs with last
  · have alone : ∀ i, ¬s.Stands i r := by
      intro i on_r
      have := H.locks_pos.mpr ⟨i, on_r⟩
      omega
    constructor
    case sorted => exact H.sorted.sublist List.erase_sublist
    case listed =>
      intro t
      rw [MapState.freeRecord_record]
      change t ∈ s.records.erase r ↔ _
      rw [H.nodup.mem_erase_iff, H.listed]
      rcases eq_or_ne t r with rfl | ne
      · simp
      · simp [ne]
    case below => exact fun t mem => H.below t (List.erase_subset mem)
    case counts =>
      intro t mt at_t
      rw [MapState.freeRecord_record] at at_t
      rcases eq_or_ne t r with rfl | ne
      · rw [Function.update_self] at at_t
        cases at_t
      · rw [Function.update_of_ne ne] at at_t
        exact H.counts t mt at_t
    case there =>
      intro i t on_t
      change t ∈ s.records.erase r
      rw [H.nodup.mem_erase_iff]
      exact ⟨fun eq => alone i (eq ▸ on_t), H.there i t on_t⟩
    case fresh => exact H.fresh
  · constructor
    case sorted => exact H.sorted
    case listed =>
      intro t
      rw [MapState.putRecord_record]
      refine (H.listed t).trans ?_
      rcases eq_or_ne t r with rfl | ne
      · simp [at_r]
      · simp [ne]
    case below => exact H.below
    case counts =>
      intro t mt at_t
      rw [MapState.putRecord_record] at at_t
      rcases eq_or_ne t r with rfl | ne
      · rw [Function.update_self] at at_t
        obtain rfl := Option.some.inj at_t
        change mr.refCount - 1 = 0 + s.locks t ∧ 0 < mr.refCount - 1
        omega
      · rw [Function.update_of_ne ne] at at_t
        exact H.counts t mt at_t
    case there => exact H.there
    case fresh => exact H.fresh

theorem entryAt_drop (at_r : s.record r = some mr) :
    (if mr.refCount = 1 then s.freeRecord r
      else s.putRecord r ⟨mr.refCount - 1, none⟩).entryAt = Function.update s.entryAt r none := by
  funext t
  split_ifs with last
  · rw [MapState.entryAt, MapState.freeRecord_record]
    rcases eq_or_ne t r with rfl | ne
    · rw [Function.update_self, Function.update_self]
      rfl
    · rw [Function.update_of_ne ne, Function.update_of_ne ne, MapState.entryAt]
  · rw [MapState.entryAt, MapState.putRecord_record]
    rcases eq_or_ne t r with rfl | ne
    · rw [Function.update_self, Function.update_self]
      rfl
    · rw [Function.update_of_ne ne, Function.update_of_ne ne, MapState.entryAt]

end Maps
