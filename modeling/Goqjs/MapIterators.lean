import Goqjs.MapTables

/-!
# Iterators over a map

Where an iterator and a call of `forEach` go from a record: to the first entry behind it that is
still there, provided that the record right behind it was not freed under way.
-/

namespace Maps

open OrderedMaps

variable {κ V : Type} {K : Keys κ} {s s' : MapState κ V} {r t i n p : Nat} {e : κ × V}
  {l : List Nat} {mr : MapRecord κ V} {it : MapIterator} {freed : List Nat}

theorem after_eq_filter (sorted : l.Pairwise (· < ·)) (mem : r ∈ l) :
    after r l = l.filter fun t => decide (r < t) := by
  induction l with
  | nil => cases mem
  | cons a l ih =>
    obtain ⟨less, sorted⟩ := List.pairwise_cons.mp sorted
    rcases eq_or_ne a r with rfl | ne
    · have all : l.filter (fun t => decide (a < t)) = l :=
        List.filter_eq_self.mpr fun t mem => decide_eq_true (less t mem)
      rw [List.filter_cons_of_neg (by simp), all]
      simp [after]
    · have mem : r ∈ l := (List.mem_cons.mp mem).resolve_left ne.symm
      have before := less r mem
      rw [List.filter_cons_of_neg (by simp; omega), ← ih sorted mem]
      simp [after, ne]

theorem Held.mem_after (H : Held s) (mem : r ∈ s.records) :
    t ∈ after r s.records ↔ t ∈ s.records ∧ r < t := by
  rw [after_eq_filter H.sorted mem, List.mem_filter, decide_eq_true_iff]

theorem Held.sorted_after (H : Held s) (mem : r ∈ s.records) :
    (after r s.records).Pairwise (· < ·) := by
  rw [after_eq_filter H.sorted mem]
  exact H.sorted.filter _

/-- The list from a record on. -/
theorem Held.linksFrom (H : Held s) (mem : r ∈ s.records) :
    ∃ l, s.linksFrom (some r) = some l ∧ l.Pairwise (· < ·) ∧
      ∀ t, t ∈ l ↔ t ∈ s.records ∧ r ≤ t := by
  refine ⟨r :: after r s.records, if_pos mem, ?_, fun t => ?_⟩
  · rw [List.pairwise_cons]
    exact ⟨fun t later => ((H.mem_after mem).mp later).2, H.sorted_after mem⟩
  · rw [List.mem_cons, H.mem_after mem]
    constructor
    · rintro (rfl | ⟨later, less⟩)
      · exact ⟨mem, Nat.le_refl _⟩
      · exact ⟨later, Nat.le_of_lt less⟩
    · rintro ⟨listed, le⟩
      rcases Nat.eq_or_lt_of_le le with rfl | less
      · exact .inl rfl
      · exact .inr ⟨listed, less⟩

theorem head?_least {l : List Nat} (sorted : l.Pairwise (· < ·)) (head : l.head? = some r) :
    r ∈ l ∧ ∀ t ∈ l, r ≤ t := by
  cases l with
  | nil => cases head
  | cons a l =>
    obtain rfl := Option.some.inj head
    refine ⟨List.mem_cons_self, fun t mem => ?_⟩
    rcases List.mem_cons.mp mem with rfl | mem
    · exact Nat.le_refl _
    · exact Nat.le_of_lt ((List.pairwise_cons.mp sorted).1 t mem)

theorem Held.lock (H : Held s) (lt : i < s.nextIterator) (off : lockOf (s.iterators i) = [])
    (at_r : s.record r = some mr) (forEach : Bool) :
    Held ((s.putRecord r { mr with refCount := mr.refCount + 1 }).putIterator i
      (some ⟨forEach, .on r⟩)) := by
  apply H.move lt H.sorted
  · intro t
    rw [H.listed, MapState.putRecord_record]
    rcases eq_or_ne t r with rfl | ne
    · simp [at_r]
    · simp [ne]
  · exact List.Subset.refl _
  · intro t mt at_t
    rw [MapState.putRecord_record] at at_t
    rw [off, lockOf, List.count_nil, List.count_singleton]
    rcases eq_or_ne t r with rfl | ne
    · rw [Function.update_self] at at_t
      obtain rfl := Option.some.inj at_t
      refine ⟨mr, at_r, rfl, ?_, Nat.succ_pos _⟩
      simp
    · rw [Function.update_of_ne ne] at at_t
      refine ⟨mt, at_t, rfl, ?_, (H.counts t mt at_t).2⟩
      simp [ne.symm]
  · intro j t on_t
    rw [stands_putIterator] at on_t
    split_ifs at on_t with self
    · obtain rfl : r = t := List.singleton_injective on_t
      exact (H.listed r).mpr (by rw [at_r]; rfl)
    · exact H.there j t on_t

/-- Where an iterator is that looks for an entry from a place on. -/
def Moved (K : Keys κ) (s : MapState κ V) (i : Nat) (forEach : Bool) (p : Nat)
    (answer : Answer κ V) (s' : MapState κ V) : Prop :=
  Sound K s' ∧ ∃ place, Shows s' s.entryAt s.nextRecord
      (Function.update s.iterators i (some ⟨forEach, place⟩)) s.nextIterator ∧
    ((firstFrom (places s.entryAt s.nextRecord) p = none ∧ answer = .done ∧ place = .finished) ∨
      ∃ t e, firstFrom (places s.entryAt s.nextRecord) p = some t ∧ s.entryAt t = some e ∧
        answer = .entry e ∧ place = .on t)

theorem Sound.moveTo (S : Sound K s) (few : s.nextIterator ≤ 2 ^ 30) (lt : i < s.nextIterator)
    (off : lockOf (s.iterators i) = []) (forEach : Bool) {el : Option Nat}
    (links : s.linksFrom el = some l) (sorted : l.Pairwise (· < ·))
    (mem_iff : ∀ t, (s.entryAt t).isSome = true → (t ∈ l ↔ p ≤ t)) :
    ∃ answer s', s.moveTo i forEach el = some (answer, s') ∧ Moved K s i forEach p answer s' := by
  have first := find?_eq_firstFrom sorted mem_iff fun t live => S.held.lt_of_entry live
  rw [MapState.moveTo, links, Option.bind_some, first]
  cases found : firstFrom (places s.entryAt s.nextRecord) p with
  | none =>
    refine ⟨.done, s.putIterator i (some ⟨forEach, .finished⟩), rfl, ⟨?_, ?_⟩, .finished,
      ⟨rfl, rfl, rfl, rfl⟩, .inl ⟨found, rfl, rfl⟩⟩
    · exact S.held.unlock lt off rfl
    · exact S.hashed.kept ⟨rfl, rfl, rfl, rfl, rfl, rfl⟩
  | some t =>
    rw [found] at first
    have live := List.find?_some first
    obtain ⟨e, at_t⟩ := Option.isSome_iff_exists.mp live
    obtain ⟨mr, there, entry⟩ := Option.bind_eq_some_iff.mp at_t
    have entries : ((s.putRecord t { mr with refCount := mr.refCount + 1 }).putIterator i
        (some ⟨forEach, .on t⟩)).entryAt = s.entryAt := by
      funext u
      rw [MapState.putIterator_entryAt, MapState.entryAt, MapState.putRecord_record]
      rcases eq_or_ne u t with rfl | ne
      · rw [Function.update_self, MapState.entryAt, there]
        rfl
      · rw [Function.update_of_ne ne, MapState.entryAt]
    refine ⟨.entry e, (s.putRecord t { mr with refCount := mr.refCount + 1 }).putIterator i
      (some ⟨forEach, .on t⟩), ?_, ⟨?_, ?_⟩, .on t, ⟨entries, rfl, rfl, rfl⟩,
      .inr ⟨t, e, found, at_t, rfl, rfl⟩⟩
    · have small : mr.refCount < intMax := by
        have count := (S.held.counts t mr there).1
        have most := locks_le s t
        have limit : 2 ^ 30 + 1 < intMax := by decide
        rw [entry, Option.toList_some, List.length_singleton] at count
        omega
      simp only [there, Option.bind_some, small, if_true, entry, Option.map_some]
    · exact S.held.lock lt off there forEach
    · exact S.hashed.kept ⟨entries, rfl, rfl, rfl, rfl, rfl⟩

/-- The record is freed once these iterators are finalized. -/
def Freed (s : MapState κ V) (freed : List Nat) (r : Nat) : Prop :=
  s.entryAt r = none ∧ ∀ i, lockOf (closed freed s.iterators i) ≠ [r]

theorem Held.not_freed_nil (H : Held s) (mem : r ∈ s.records) : ¬Freed s [] r := by
  rintro ⟨dead, alone⟩
  rcases H.mem_iff.mp mem with live | ⟨i, on_r⟩
  · rw [dead] at live
    cases live
  · apply alone i
    rw [closed_nil]
    exact on_r

/-- A record that was there is still there, or these iterators were the last that held it. -/
theorem Held.mem_iff_not_freed (H : Held s') (entry : s'.entryAt r = s.entryAt r)
    (locks : ∀ i, lockOf (s'.iterators i) = [r] ↔ lockOf (closed freed s.iterators i) = [r]) :
    r ∈ s'.records ↔ ¬Freed s freed r := by
  rw [H.mem_iff, entry, Freed, not_and, not_forall]
  constructor
  · rintro (live | ⟨i, on_r⟩) dead
    · rw [dead] at live
      cases live
    · exact ⟨i, not_not.mpr ((locks i).mp on_r)⟩
  · intro held
    cases at_r : s.entryAt r with
    | some e => exact .inl rfl
    | none =>
      obtain ⟨i, on_r⟩ := held at_r
      exact .inr ⟨i, (locks i).mpr (not_not.mp on_r)⟩

/-- The record right behind the one that an iterator is on is freed under way. -/
def NextFreed (s : MapState κ V) (i : Nat) (forEach : Bool) (freed : List Nat) : Prop :=
  ∃ r x, s.iterators i = some ⟨forEach, .on r⟩ ∧ (after r s.records).head? = some x ∧
    Freed s freed x

/-- The iterator leaves its record, and freeing the values gives up iterators: what is left of the
step is the move. Behind the record only freed ones are gone. -/
theorem Sound.leave_on (S : Sound K s) {forEach : Bool}
    (at_i : s.iterators i = some ⟨forEach, .on r⟩) (keeps : forEach = true ∨ freed = []) :
    ∃ s₁, s.advance i ⟨forEach, .on r⟩ freed = s₁.moveTo i forEach (after r s.records).head? ∧
      Sound K s₁ ∧ Shows s₁ s.entryAt s.nextRecord
        (closed freed (Function.update s.iterators i (some ⟨forEach, .finished⟩)))
        s.nextIterator ∧ s₁.iterators i = some ⟨forEach, .finished⟩ ∧
      ∀ x, r < x → (x ∈ s₁.records ↔ ¬Freed s freed x) := by
  have H := S.held
  have mem := H.there i r (stands_on at_i)
  obtain ⟨s₀, left, held₀, kept₀, iterators₀⟩ :=
    H.leave at_i (x := some ⟨forEach, .finished⟩) rfl
  have S₀ : Sound K s₀ := ⟨held₀, S.hashed.kept kept₀⟩
  obtain ⟨s₁, closing, S₁, shown₁⟩ := S₀.freeValues freed
  have shows₁ : Shows s₁ s.entryAt s.nextRecord
      (closed freed (Function.update s.iterators i (some ⟨forEach, .finished⟩)))
      s.nextIterator := by
    refine ⟨shown₁.entries.trans kept₀.entries, shown₁.nextRecord.trans kept₀.nextRecord, ?_,
      shown₁.nextIterator.trans kept₀.nextIterator⟩
    rw [shown₁.iterators, iterators₀]
  have self : s₁.iterators i = some ⟨forEach, .finished⟩ := by
    rw [shows₁.iterators, closed, Function.update_self]
    split_ifs with mem
    · rcases keeps with rfl | rfl
      · rfl
      · cases mem
    · rfl
  have step : s.advance i ⟨forEach, .on r⟩ freed =
      s₁.moveTo i forEach (after r s.records).head? := by
    have link : s.linkNext r = some (after r s.records).head? := if_pos mem
    change ((s.linkNext r).bind fun el =>
      (s.leave i (.on r) (some ⟨forEach, .finished⟩)).bind fun s =>
        (s.freeValues freed).bind fun s => s.moveTo i forEach el) = _
    rw [link, Option.bind_some, left, Option.bind_some, closing, Option.bind_some]
  refine ⟨s₁, step, S₁, shows₁, self, ?_⟩
  intro x less
  apply S₁.held.mem_iff_not_freed (congrFun shows₁.entries x)
  intro j
  rcases eq_or_ne j i with rfl | ne
  · rw [self, closed]
    have other : [r] ≠ [x] := fun eq => Nat.ne_of_lt less (List.singleton_injective eq)
    split_ifs with mem
    · rcases keeps with rfl | rfl
      · rw [at_i]
        exact iff_of_false (List.cons_ne_nil x []).symm other
      · cases mem
    · rw [at_i]
      exact iff_of_false (List.cons_ne_nil x []).symm other
  · rw [shows₁.iterators, closed, Function.update_of_ne ne, ← closed]

/-- An iterator at a record goes on, or touches the freed record behind it. -/
theorem Sound.advance_on (S : Sound K s) (few : s.nextIterator ≤ 2 ^ 30) {forEach : Bool}
    (at_i : s.iterators i = some ⟨forEach, .on r⟩) (keeps : forEach = true ∨ freed = []) :
    (NextFreed s i forEach freed ∧ s.advance i ⟨forEach, .on r⟩ freed = none) ∨
      (¬NextFreed s i forEach freed ∧ ∃ answer s₁ s',
        s.advance i ⟨forEach, .on r⟩ freed = some (answer, s') ∧
        Shows s₁ s.entryAt s.nextRecord
          (closed freed (Function.update s.iterators i (some ⟨forEach, .finished⟩)))
          s.nextIterator ∧ Moved K s₁ i forEach (r + 1) answer s') := by
  have H := S.held
  have mem := H.there i r (stands_on at_i)
  obtain ⟨s₁, step, S₁, shows₁, self, still⟩ := S.leave_on at_i keeps
  have few₁ : s₁.nextIterator ≤ 2 ^ 30 := by rwa [shows₁.nextIterator]
  have lt : i < s₁.nextIterator := by
    rw [shows₁.nextIterator]
    exact H.lt_of_stands (stands_on at_i)
  have off : lockOf (s₁.iterators i) = [] := by
    rw [self]
    rfl
  have next_iff : NextFreed s i forEach freed ↔ ∃ x, (after r s.records).head? = some x ∧
      Freed s freed x := by
    constructor
    · rintro ⟨r', x, at_i', head, gone⟩
      rw [at_i] at at_i'
      cases at_i'
      exact ⟨x, head, gone⟩
    · rintro ⟨x, head, gone⟩
      exact ⟨r, x, at_i, head, gone⟩
  rw [next_iff, step]
  -- live records behind `r` are behind it in the list before the call
  have behind : ∀ t, (s₁.entryAt t).isSome = true → r < t → t ∈ after r s.records := by
    intro t live less
    rw [shows₁.entries] at live
    exact (H.mem_after mem).mpr ⟨H.mem_iff.mpr (.inl live), less⟩
  cases head : (after r s.records).head? with
  | none =>
    refine .inr ⟨?_, ?_⟩
    · rintro ⟨x, eq, -⟩
      cases eq
    have empty : after r s.records = [] := List.head?_eq_none_iff.mp head
    have links : s₁.linksFrom none = some [] := rfl
    have moved := S₁.moveTo (p := r + 1) few₁ lt off forEach links List.Pairwise.nil
    obtain ⟨answer, s', result, moved⟩ := moved (by
      intro t live
      refine iff_of_false List.not_mem_nil fun less => ?_
      have := behind t live less
      rw [empty] at this
      cases this)
    exact ⟨answer, s₁, s', result, shows₁, moved⟩
  | some x =>
    obtain ⟨listed, least⟩ := head?_least (H.sorted_after mem) head
    have less := ((H.mem_after mem).mp listed).2
    by_cases gone : Freed s freed x
    · refine .inl ⟨⟨x, rfl, gone⟩, ?_⟩
      have absent : x ∉ s₁.records := fun there => (still x less).mp there gone
      rw [MapState.moveTo, MapState.linksFrom, if_neg absent]
      rfl
    · refine .inr ⟨?_, ?_⟩
      · rintro ⟨y, eq, gone'⟩
        obtain rfl := Option.some.inj eq
        exact gone gone'
      · obtain ⟨l, links, sorted, mem_iff⟩ := S₁.held.linksFrom ((still x less).mpr gone)
        have moved := S₁.moveTo (p := r + 1) few₁ lt off forEach links sorted
        obtain ⟨answer, s', result, moved⟩ := moved (by
          intro t live
          rw [mem_iff]
          constructor
          · exact fun from_x => Nat.le_trans less from_x.2
          · exact fun later => ⟨S₁.held.mem_iff.mpr (.inl live), least t (behind t live later)⟩)
        exact ⟨answer, s₁, s', result, shows₁, moved⟩

/-- An iterator that has not started. -/
theorem Sound.advance_start (S : Sound K s) (few : s.nextIterator ≤ 2 ^ 30) {forEach : Bool}
    (at_i : s.iterators i = some ⟨forEach, .start⟩) (keeps : forEach = true ∨ freed = []) :
    ∃ answer s₁ s', s.advance i ⟨forEach, .start⟩ freed = some (answer, s') ∧
      Shows s₁ s.entryAt s.nextRecord (closed freed s.iterators) s.nextIterator ∧
      Moved K s₁ i forEach 0 answer s' := by
  obtain ⟨s₁, closing, S₁, shows₁⟩ := S.freeValues freed
  have H := S₁.held
  have self : s₁.iterators i = some ⟨forEach, .start⟩ := by
    rw [shows₁.iterators, closed, at_i]
    split_ifs with mem
    · rcases keeps with rfl | rfl
      · rfl
      · cases mem
    · rfl
  have lt : i < s₁.nextIterator := by
    by_contra outside
    rw [H.fresh i (Nat.le_of_not_lt outside)] at self
    cases self
  have off : lockOf (s₁.iterators i) = [] := by
    rw [self]
    rfl
  have links : s₁.linksFrom s₁.records.head? = some s₁.records := by
    cases records : s₁.records with
    | nil => rfl
    | cons r l =>
      rw [List.head?_cons, MapState.linksFrom, records, if_pos List.mem_cons_self]
      simp [after]
  have few₁ : s₁.nextIterator ≤ 2 ^ 30 := by rwa [shows₁.nextIterator]
  obtain ⟨answer, s', result, moved⟩ := S₁.moveTo few₁ lt off forEach links H.sorted
    fun t live => iff_of_true (H.mem_iff.mpr (.inl live)) (Nat.zero_le t)
  refine ⟨answer, s₁, s', ?_, shows₁, moved⟩
  change ((s.freeValues freed).bind fun s => s.moveTo i forEach s.records.head?) = _
  rw [closing, Option.bind_some, result]

end Maps
