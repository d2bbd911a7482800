import Goqjs.Buckets
import Goqjs.MapRecords
import Mathlib.Algebra.Group.Nat.Defs

/-!
# The keys of a map and their buckets

The records with entries have different keys, each stands in the bucket of its hash, and there are
always fewer of them than the table is made for.
-/

namespace Maps

open Buckets OrderedMaps

variable {κ V : Type} {K : Keys κ} {s s' : MapState κ V} {k : κ} {v : V} {r t i j n : Nat}
  {e e' : κ × V} {mr : MapRecord κ V} {freed : List Nat}

/-- The bucket of a record in a table of this size. -/
def slotOf (K : Keys κ) (entries : Nat → Option (κ × V)) (n r : Nat) : Option Nat :=
  (entries r).map fun e => bucketOf K n e.1

def Distinct (K : Keys κ) (entries : Nat → Option (κ × V)) : Prop :=
  ∀ r t e e', entries r = some e → entries t = some e' → K.same e.1 e'.1 = true → r = t

structure Hashed (K : Keys κ) (s : MapState κ V) : Prop where
  filed : Filed s.hashTable (slotOf K s.entryAt s.hashTable.length)
  distinct : Distinct K s.entryAt
  count : s.recordCount = size (places s.entryAt s.nextRecord)
  sized : ∃ m, s.hashTable.length = 2 ^ m ∧ m ≠ 1 ∧
    s.recordCountThreshold = max 4 (s.hashTable.length * 2)
  load : s.recordCount < s.recordCountThreshold
  fits : s.recordCountThreshold ≤ 4294967295

structure Sound (K : Keys κ) (s : MapState κ V) : Prop where
  held : Held s
  hashed : Hashed K s

theorem slotOf_update (entries : Nat → Option (κ × V)) (x : Option (κ × V)) :
    slotOf K (Function.update entries r x) n t =
      Function.update (slotOf K entries n) r (x.map fun e => bucketOf K n e.1) t := by
  rw [slotOf]
  rcases eq_or_ne t r with rfl | ne
  · rw [Function.update_self, Function.update_self]
  · rw [Function.update_of_ne ne, Function.update_of_ne ne, slotOf]

theorem bucketOf_lt (K : Keys κ) {m : Nat} (sized : n = 2 ^ m) (k : κ) : bucketOf K n k < n := by
  rw [bucketOf, sized, Nat.and_two_pow_sub_one_eq_mod]
  exact Nat.mod_lt _ (Nat.two_pow_pos m)

theorem Hashed.bucketOf_lt (H : Hashed K s) (k : κ) :
    bucketOf K s.hashTable.length k < s.hashTable.length := by
  obtain ⟨m, length, -⟩ := H.sized
  exact Maps.bucketOf_lt K length k

theorem findIn_eq (k : κ) {l : List Nat} (live : ∀ r ∈ l, (s.entryAt r).isSome = true) :
    s.findIn K k l = some (l.find? fun r => hit K.same k (s.entryAt r)) := by
  induction l with
  | nil => rfl
  | cons r l ih =>
    obtain ⟨e, at_r⟩ := Option.isSome_iff_exists.mp (live r List.mem_cons_self)
    have step : s.findIn K k (r :: l) =
        if K.same e.1 k then some (some r) else s.findIn K k l := by
      rw [MapState.findIn, at_r]
    rw [step, List.find?_cons, at_r, hit, Option.any_some]
    cases K.same e.1 k with
    | true => rfl
    | false => exact ih fun t mem => live t (List.mem_cons_of_mem r mem)

theorem hit_iff : hit K.same k (s.entryAt r) = true ↔
    ∃ e, s.entryAt r = some e ∧ K.same e.1 k = true := by
  rw [hit]
  cases s.entryAt r <;> simp

/-- No two records have a key. -/
theorem Distinct.only (D : Distinct K s.entryAt) (at_r : s.entryAt r = some e)
    (same : K.same e.1 k = true) : ∀ t, hit K.same k (s.entryAt t) = true → t = r := by
  intro t hits
  obtain ⟨e', at_t, same'⟩ := hit_iff.mp hits
  exact D t r e' e at_t at_r (K.trans same' (K.symm same))

/-- `map_find_record` finds the record of a key. -/
theorem Hashed.mapFindRecord (H : Hashed K s) (k : κ) :
    (∃ r e, s.mapFindRecord K k = some (some r) ∧ s.entryAt r = some e ∧ K.same e.1 k = true) ∨
      s.mapFindRecord K k = some none ∧ ∀ t, hit K.same k (s.entryAt t) = false := by
  have mem_iff := fun r => (H.filed (bucketOf K s.hashTable.length k)).2 r
  have live : ∀ r ∈ s.hashTable.getD (bucketOf K s.hashTable.length k) [],
      (s.entryAt r).isSome = true := by
    intro r mem
    have at_r := (mem_iff r).mp mem
    cases entry : s.entryAt r with
    | none =>
      rw [slotOf, entry] at at_r
      cases at_r
    | some e => rfl
  rw [MapState.mapFindRecord, findIn_eq k live]
  cases found : List.find? (fun r => hit K.same k (s.entryAt r))
      (s.hashTable.getD (bucketOf K s.hashTable.length k) []) with
  | some r =>
    have hits := List.find?_some found
    obtain ⟨e, at_r, same⟩ := hit_iff.mp hits
    exact .inl ⟨r, e, rfl, at_r, same⟩
  | none =>
    refine .inr ⟨rfl, fun t => ?_⟩
    cases hits : hit K.same k (s.entryAt t) with
    | false => rfl
    | true =>
      obtain ⟨e, at_t, same⟩ := hit_iff.mp hits
      have mem := (mem_iff t).mpr (by
        rw [slotOf, at_t, Option.map_some, bucketOf, K.hash_eq same, ← bucketOf])
      exact absurd hits (List.find?_eq_none.mp found t mem)

theorem rehash_eq_file (n : Nat) : s.rehash K n = file (slotOf K s.entryAt n) := by
  funext table r
  rw [MapState.rehash, file, slotOf]
  cases s.entryAt r <;> rfl

theorem newHashSize_eq {m : Nat} (sized : n = 2 ^ m) (ne : m ≠ 1) (small : n ≤ 2 ^ 30) :
    ∃ m', MapState.newHashSize n = 2 ^ m' ∧ m' ≠ 1 ∧ 4 ≤ MapState.newHashSize n ∧
      max 4 (n * 2) ≤ MapState.newHashSize n * 2 - 1 ∧ MapState.newHashSize n ≤ max 4 (n * 2) := by
  rw [MapState.newHashSize]
  rcases m with - | - | m
  · rw [sized]
    exact ⟨2, rfl, by decide, by decide, by decide, by decide⟩
  · exact absurd rfl ne
  · have pos := Nat.two_pow_pos m
    have four : n = 2 ^ m * 4 := by
      rw [sized, Nat.pow_succ, Nat.pow_succ]
      omega
    rw [if_neg (by omega), uint32_of_lt (by omega)]
    refine ⟨m + 3, ?_, by omega, by omega, by omega, by omega⟩
    rw [four, Nat.pow_add]
    omega

theorem slotOf_isSome (at_r : slotOf K s.entryAt n r = some t) : (s.entryAt r).isSome = true := by
  cases entry : s.entryAt r with
  | none =>
    rw [slotOf, entry] at at_r
    cases at_r
  | some e => rfl

/-- `map_hash_resize`, when the table has as many records as it may. -/
theorem hashed_resize (H : Held s) (distinct : Distinct K s.entryAt)
    (count : s.recordCount = size (places s.entryAt s.nextRecord))
    (sized : ∃ m, s.hashTable.length = 2 ^ m ∧ m ≠ 1 ∧
      s.recordCountThreshold = max 4 (s.hashTable.length * 2))
    (load : s.recordCount = s.recordCountThreshold) (few : s.recordCount ≤ 2 ^ 30) :
    Hashed K (s.mapHashResize K) := by
  obtain ⟨m, length, ne, threshold⟩ := sized
  obtain ⟨m', length', ne', four, room, most⟩ := newHashSize_eq length ne (by omega)
  have doubled : uint32 (MapState.newHashSize s.hashTable.length * 2) =
      MapState.newHashSize s.hashTable.length * 2 := uint32_of_lt (by omega)
  have table : (s.mapHashResize K).hashTable =
      s.records.foldl (file (slotOf K s.entryAt (MapState.newHashSize s.hashTable.length)))
        (List.replicate (MapState.newHashSize s.hashTable.length) []) := by
    rw [← rehash_eq_file]
    rfl
  have size_eq : (s.mapHashResize K).hashTable.length =
      MapState.newHashSize s.hashTable.length := by
    rw [table, length_foldl_file, List.length_replicate]
  constructor
  case filed =>
    rw [size_eq, table]
    have inside : ∀ r b, slotOf K s.entryAt (MapState.newHashSize s.hashTable.length) r = some b →
        b < (List.replicate (MapState.newHashSize s.hashTable.length) ([] : List Nat)).length := by
      intro r b at_r
      obtain ⟨e, -, rfl⟩ := Option.map_eq_some_iff.mp at_r
      rw [List.length_replicate]
      exact Maps.bucketOf_lt K length' e.1
    apply ((filed_replicate _).foldl _ H.nodup (fun _ _ => rfl) inside).congr
    intro r
    change slotOf K s.entryAt _ r = _
    split_ifs with mem
    · rfl
    · cases at_r : slotOf K s.entryAt (MapState.newHashSize s.hashTable.length) r with
      | none => rfl
      | some b => exact absurd (H.mem_iff.mpr (.inl (slotOf_isSome at_r))) mem
  case distinct => exact distinct
  case count => exact count
  case sized =>
    refine ⟨m', size_eq.trans length', ne', ?_⟩
    rw [size_eq]
    change uint32 (MapState.newHashSize s.hashTable.length * 2) = _
    omega
  case load =>
    change s.recordCount < uint32 (MapState.newHashSize s.hashTable.length * 2)
    omega
  case fits =>
    change uint32 (MapState.newHashSize s.hashTable.length * 2) ≤ _
    omega

theorem Held.linkRecord (H : Held s) (k : κ) (v : V) : Held (s.linkRecord K k v) := by
  have unused : s.record s.nextRecord = none := by
    cases at_next : s.record s.nextRecord with
    | none => rfl
    | some mr =>
      have := H.below s.nextRecord ((H.listed s.nextRecord).mpr (by rw [at_next]; rfl))
      omega
  have records : (s.linkRecord K k v).records = s.records ++ [s.nextRecord] := rfl
  have record : (s.linkRecord K k v).record =
      Function.update s.record s.nextRecord (some ⟨1, some (k, v)⟩) := rfl
  constructor
  case sorted =>
    rw [records, List.pairwise_append]
    refine ⟨H.sorted, List.pairwise_singleton _ _, fun r mem t mem_t => ?_⟩
    rw [List.mem_singleton.mp mem_t]
    exact H.below r mem
  case listed =>
    intro r
    rw [records, record, List.mem_append, List.mem_singleton, H.listed]
    rcases eq_or_ne r s.nextRecord with rfl | ne
    · simp
    · simp [ne]
  case below =>
    intro r mem
    change r < s.nextRecord + 1
    rw [records, List.mem_append, List.mem_singleton] at mem
    rcases mem with mem | rfl
    · exact Nat.lt_succ_of_lt (H.below r mem)
    · exact Nat.lt_succ_self _
  case counts =>
    intro r mr at_r
    rw [record] at at_r
    rcases eq_or_ne r s.nextRecord with rfl | ne
    · rw [Function.update_self] at at_r
      obtain rfl := Option.some.inj at_r
      have free : s.locks s.nextRecord = 0 := by
        by_contra nonzero
        obtain ⟨i, on_r⟩ := H.locks_pos.mp (Nat.pos_of_ne_zero nonzero)
        exact absurd (H.below _ (H.there i _ on_r)) (Nat.lt_irrefl _)
      change 1 = 1 + s.locks s.nextRecord ∧ 0 < 1
      omega
    · rw [Function.update_of_ne ne] at at_r
      exact H.counts r mr at_r
  case there =>
    intro i r on_r
    rw [records]
    exact List.mem_append_left _ (H.there i r on_r)
  case fresh => exact H.fresh

theorem entryAt_linkRecord (k : κ) (v : V) : (s.linkRecord K k v).entryAt =
    Function.update s.entryAt s.nextRecord (some (k, v)) := by
  funext r
  change (Function.update s.record s.nextRecord (some ⟨1, some (k, v)⟩) r).bind _ = _
  rcases eq_or_ne r s.nextRecord with rfl | ne
  · rw [Function.update_self, Function.update_self]
    rfl
  · rw [Function.update_of_ne ne, Function.update_of_ne ne, MapState.entryAt]

theorem Distinct.add (D : Distinct K s.entryAt) (miss : ∀ t, hit K.same k (s.entryAt t) = false)
    (r : Nat) (v : V) : Distinct K (Function.update s.entryAt r (some (k, v))) := by
  have other : ∀ t e, s.entryAt t = some e → K.same e.1 k = true → False := by
    intro t e at_t same
    have := hit_iff.mpr ⟨e, at_t, same⟩
    rw [miss t] at this
    cases this
  intro t u e e' at_t at_u same
  rcases eq_or_ne t r with rfl | ne
  · rw [Function.update_self] at at_t
    obtain rfl := Option.some.inj at_t
    rcases eq_or_ne u t with rfl | ne
    · rfl
    · rw [Function.update_of_ne ne] at at_u
      exact (other u e' at_u (K.symm same)).elim
  · rw [Function.update_of_ne ne] at at_t
    rcases eq_or_ne u r with rfl | ne'
    · rw [Function.update_self] at at_u
      obtain rfl := Option.some.inj at_u
      exact (other t e at_t same).elim
    · rw [Function.update_of_ne ne'] at at_u
      exact D t u e e' at_t at_u same

theorem Distinct.remove (D : Distinct K s.entryAt) (r : Nat) :
    Distinct K (Function.update s.entryAt r none) := by
  intro t u a b at_t at_u
  rcases eq_or_ne t r with rfl | ne
  · rw [Function.update_self] at at_t
    cases at_t
  · rcases eq_or_ne u r with rfl | ne'
    · rw [Function.update_self] at at_u
      cases at_u
    · rw [Function.update_of_ne ne] at at_t
      rw [Function.update_of_ne ne'] at at_u
      exact D t u a b at_t at_u

/-- Only the keys of the entries matter. -/
theorem Distinct.of_keys {entries : Nat → Option (κ × V)} (D : Distinct K s.entryAt)
    (keys : ∀ t, (entries t).map Prod.fst = (s.entryAt t).map Prod.fst) : Distinct K entries := by
  intro t u a b at_t at_u same
  have key_t := keys t
  have key_u := keys u
  rw [at_t] at key_t
  rw [at_u] at key_u
  obtain ⟨a', old_t, eq_a⟩ := Option.map_eq_some_iff.mp key_t.symm
  obtain ⟨b', old_u, eq_b⟩ := Option.map_eq_some_iff.mp key_u.symm
  rw [← eq_a, ← eq_b] at same
  exact D t u a' b' old_t old_u same

/-- What a call leaves to be seen. -/
structure Shows (s : MapState κ V) (entries : Nat → Option (κ × V)) (nextRecord : Nat)
    (iterators : Nat → Option MapIterator) (nextIterator : Nat) : Prop where
  entries : s.entryAt = entries
  nextRecord : s.nextRecord = nextRecord
  iterators : s.iterators = iterators
  nextIterator : s.nextIterator = nextIterator

/-- `map_add_record` of a key that is not there. -/
theorem Sound.mapAddRecord (S : Sound K s) (few : s.nextRecord < 2 ^ 30)
    (miss : ∀ t, hit K.same k (s.entryAt t) = false) (v : V) : Sound K (s.mapAddRecord K k v) ∧
      Shows (s.mapAddRecord K k v) (Function.update s.entryAt s.nextRecord (some (k, v)))
        (s.nextRecord + 1) s.iterators s.nextIterator := by
  have H := S.hashed
  have held := S.held.linkRecord (K := K) k v
  have entries := entryAt_linkRecord (K := K) (s := s) k v
  have unused : s.entryAt s.nextRecord = none := by
    cases at_next : s.entryAt s.nextRecord with
    | none => rfl
    | some e => exact absurd (S.held.lt_of_entry (by rw [at_next]; rfl)) (Nat.lt_irrefl _)
  have length : (s.linkRecord K k v).hashTable.length = s.hashTable.length := List.length_modify ..
  have distinct : Distinct K (s.linkRecord K k v).entryAt := by
    rw [entries]
    exact H.distinct.add miss s.nextRecord v
  have count : (s.linkRecord K k v).recordCount =
      size (places (s.linkRecord K k v).entryAt (s.linkRecord K k v).nextRecord) := by
    have grown := size_update (f := s.entryAt) (Nat.lt_succ_self s.nextRecord) (some (k, v))
    rw [places_succ s.entryAt, unused, size_append, Option.toList_none, Option.toList_some] at grown
    have hole : size [(none : Option (κ × V))] = 0 := rfl
    have most : size (places s.entryAt s.nextRecord) ≤ _ := List.countP_le_length
    rw [length_places, ← H.count] at most
    rw [entries]
    change uint32 (s.recordCount + 1) = size (places _ (s.nextRecord + 1))
    rw [uint32_of_lt (by omega), H.count]
    simpa only [hole, List.length_nil, List.length_singleton, Nat.add_zero] using grown.symm
  have sized : ∃ m, (s.linkRecord K k v).hashTable.length = 2 ^ m ∧ m ≠ 1 ∧
      (s.linkRecord K k v).recordCountThreshold =
        max 4 ((s.linkRecord K k v).hashTable.length * 2) := by
    rw [length]
    exact H.sized
  have added : (s.linkRecord K k v).recordCount = s.recordCount + 1 :=
    uint32_of_lt (by have := H.load; have := H.fits; omega)
  have fewer : (s.linkRecord K k v).recordCount ≤ 2 ^ 30 := by
    have most : size (places (s.linkRecord K k v).entryAt (s.linkRecord K k v).nextRecord) ≤ _ :=
      List.countP_le_length
    rw [← count, length_places] at most
    exact most.trans few
  rw [MapState.mapAddRecord]
  by_cases full : (s.linkRecord K k v).recordCountThreshold ≤ (s.linkRecord K k v).recordCount
  · rw [if_pos full]
    have load : (s.linkRecord K k v).recordCount = (s.linkRecord K k v).recordCountThreshold := by
      have before := H.load
      change s.recordCountThreshold ≤ _ at full
      change _ = s.recordCountThreshold
      omega
    refine ⟨⟨?_, hashed_resize held distinct count sized load fewer⟩, ⟨entries, rfl, rfl, rfl⟩⟩
    exact ⟨held.sorted, held.listed, held.below, held.counts, held.there, held.fresh⟩
  · rw [if_neg full]
    refine ⟨⟨held, ?_, distinct, count, sized, Nat.lt_of_not_le full, H.fits⟩,
      ⟨entries, rfl, rfl, rfl⟩⟩
    rw [length]
    have filed := H.filed.add (r := s.nextRecord) (by rw [slotOf, unused]; rfl) (H.bucketOf_lt k)
    apply filed.congr
    intro t
    rw [entries, slotOf_update]
    rfl

/-- `map_delete_record` of a record with an entry. -/
theorem Sound.mapDeleteRecord (S : Sound K s) (at_r : s.entryAt r = some e) (freed : List Nat) :
    ∃ s', s.mapDeleteRecord r freed = some s' ∧ Sound K s' ∧
      Shows s' (Function.update s.entryAt r none) s.nextRecord (closed freed s.iterators)
        s.nextIterator := by
  have H := S.hashed
  obtain ⟨mr, there, entry⟩ := Option.bind_eq_some_iff.mp at_r
  have unlinked : Held { s with hashTable := s.hashTable.map fun (l : List Nat) => l.erase r } :=
    ⟨S.held.sorted, S.held.listed, S.held.below, S.held.counts, S.held.there, S.held.fresh⟩
  obtain ⟨s₁, closing, held₁, kept, iterators⟩ := unlinked.freeValues freed
  have at_r₁ : s₁.entryAt r = some e := by
    rw [kept.entries]
    exact at_r
  obtain ⟨mr₁, there₁, entry₁⟩ := Option.bind_eq_some_iff.mp at_r₁
  have live : mr₁.entry.isSome = true := by
    rw [entry₁]
    rfl
  have dropped := held₁.drop there₁ live
  have entries : _ = _ := entryAt_drop there₁
  rw [kept.entries] at entries
  generalize result : (if mr₁.refCount = 1 then s₁.freeRecord r
    else s₁.putRecord r ⟨mr₁.refCount - 1, none⟩) = s₂ at dropped entries
  have same : s₂.hashTable = s₁.hashTable ∧ s₂.recordCount = s₁.recordCount ∧
      s₂.recordCountThreshold = s₁.recordCountThreshold ∧ s₂.nextRecord = s₁.nextRecord ∧
      s₂.iterators = s₁.iterators ∧ s₂.nextIterator = s₁.nextIterator := by
    rw [← result]
    split_ifs <;> exact ⟨rfl, rfl, rfl, rfl, rfl, rfl⟩
  obtain ⟨table, number, threshold, next, its, nextIt⟩ := same
  have length : s₂.hashTable.length = s.hashTable.length := by
    rw [table, kept.table]
    exact List.length_map _
  have inside := S.held.lt_of_entry (by rw [at_r]; rfl)
  have smaller := size_update (f := s.entryAt) inside none
  rw [at_r] at smaller
  simp only [Option.toList_some, List.length_singleton, Option.toList_none,
    List.length_nil] at smaller
  have one_less : uint32Pred s₂.recordCount = s.recordCount - 1 := by
    have count := H.count
    rw [number, kept.count]
    exact if_neg (by omega : s.recordCount ≠ 0)
  refine ⟨{ s₂ with recordCount := uint32Pred s₂.recordCount }, ?_, ⟨?_, ?_⟩, ?_⟩
  · rw [MapState.mapDeleteRecord, there]
    simp only [entry, Option.isNone_some, Bool.false_eq_true, if_false, closing,
      Option.bind_some, there₁, result]
  · exact ⟨dropped.sorted, dropped.listed, dropped.below, dropped.counts, dropped.there,
      dropped.fresh⟩
  · constructor
    case filed =>
      change Filed s₂.hashTable (slotOf K s₂.entryAt s₂.hashTable.length)
      rw [length, entries, table, kept.table]
      apply (H.filed.remove r).congr
      intro t
      rw [slotOf_update]
      rfl
    case distinct =>
      change Distinct K s₂.entryAt
      rw [entries]
      exact H.distinct.remove r
    case count =>
      change uint32Pred s₂.recordCount = size (places s₂.entryAt s₂.nextRecord)
      rw [one_less, entries, next, kept.nextRecord]
      change s.recordCount - 1 = size (places (Function.update s.entryAt r none) s.nextRecord)
      rw [H.count]
      omega
    case sized =>
      change ∃ m, s₂.hashTable.length = 2 ^ m ∧ m ≠ 1 ∧
        s₂.recordCountThreshold = max 4 (s₂.hashTable.length * 2)
      rw [length, threshold, kept.threshold]
      exact H.sized
    case load =>
      change uint32Pred s₂.recordCount < s₂.recordCountThreshold
      rw [one_less, threshold, kept.threshold]
      exact Nat.lt_of_le_of_lt (Nat.sub_le _ _) H.load
    case fits =>
      change s₂.recordCountThreshold ≤ _
      rw [threshold, kept.threshold]
      exact H.fits
  · exact ⟨entries, next.trans kept.nextRecord, its.trans iterators,
      nextIt.trans kept.nextIterator⟩

theorem Hashed.kept (H : Hashed K s) (kept : Kept s s') : Hashed K s' := by
  constructor
  case filed =>
    rw [kept.table, kept.entries]
    exact H.filed
  case distinct =>
    rw [kept.entries]
    exact H.distinct
  case count =>
    rw [kept.count, kept.entries, kept.nextRecord]
    exact H.count
  case sized =>
    rw [kept.table, kept.threshold]
    exact H.sized
  case load =>
    rw [kept.count, kept.threshold]
    exact H.load
  case fits =>
    rw [kept.threshold]
    exact H.fits

theorem Sound.freeValues (S : Sound K s) (freed : List Nat) :
    ∃ s', s.freeValues freed = some s' ∧ Sound K s' ∧
      Shows s' s.entryAt s.nextRecord (closed freed s.iterators) s.nextIterator := by
  obtain ⟨s', closing, held, kept, iterators⟩ := S.held.freeValues freed
  exact ⟨s', closing, ⟨held, S.hashed.kept kept⟩,
    ⟨kept.entries, kept.nextRecord, iterators, kept.nextIterator⟩⟩

theorem Held.store (H : Held s) (there : s.record r = some mr) (v : V) :
    Held (s.putRecord r { mr with entry := mr.entry.map fun e => (e.1, v) }) := by
  constructor
  case sorted => exact H.sorted
  case listed =>
    intro t
    rw [MapState.putRecord_record]
    refine (H.listed t).trans ?_
    rcases eq_or_ne t r with rfl | ne
    · simp [there]
    · simp [ne]
  case below => exact H.below
  case counts =>
    intro t mt at_t
    rw [MapState.putRecord_record] at at_t
    rcases eq_or_ne t r with rfl | ne
    · rw [Function.update_self] at at_t
      obtain rfl := Option.some.inj at_t
      have counted := H.counts t mr there
      change mr.refCount = (mr.entry.map _).toList.length + s.locks t ∧ 0 < mr.refCount
      rwa [Option.toList_map, List.length_map]
    · rw [Function.update_of_ne ne] at at_t
      exact H.counts t mt at_t
  case there => exact H.there
  case fresh => exact H.fresh

/-- A record gets another value. -/
theorem Sound.store (S : Sound K s) (at_r : s.entryAt r = some e) (v : V) :
    ∃ mr, s.record r = some mr ∧
      Sound K (s.putRecord r { mr with entry := mr.entry.map fun e => (e.1, v) }) ∧
      Shows (s.putRecord r { mr with entry := mr.entry.map fun e => (e.1, v) })
        (Function.update s.entryAt r (some (e.1, v))) s.nextRecord s.iterators
        s.nextIterator := by
  have H := S.hashed
  obtain ⟨mr, there, entry⟩ := Option.bind_eq_some_iff.mp at_r
  have entries : (s.putRecord r { mr with entry := mr.entry.map fun e => (e.1, v) }).entryAt =
      Function.update s.entryAt r (some (e.1, v)) := by
    funext t
    rw [MapState.entryAt, MapState.putRecord_record]
    rcases eq_or_ne t r with rfl | ne
    · rw [Function.update_self, Function.update_self, Option.bind_some]
      change mr.entry.map _ = _
      rw [entry]
      rfl
    · rw [Function.update_of_ne ne, Function.update_of_ne ne, MapState.entryAt]
  have keys : ∀ t, ((Function.update s.entryAt r (some (e.1, v))) t).map Prod.fst =
      (s.entryAt t).map Prod.fst := by
    intro t
    rcases eq_or_ne t r with rfl | ne
    · rw [Function.update_self, at_r]
      rfl
    · rw [Function.update_of_ne ne]
  refine ⟨mr, there, ⟨S.held.store there v, ?_⟩, entries, rfl, rfl, rfl⟩
  constructor
  case filed =>
    apply H.filed.congr
    intro t
    have key := congrArg (Option.map (bucketOf K s.hashTable.length)) (keys t)
    rw [Option.map_map, Option.map_map] at key
    rw [slotOf, entries]
    exact key
  case distinct =>
    rw [entries]
    exact H.distinct.of_keys keys
  case count =>
    have inside := S.held.lt_of_entry (by rw [at_r]; rfl)
    have kept := size_update (f := s.entryAt) inside (some (e.1, v))
    rw [at_r] at kept
    rw [entries]
    exact H.count.trans (Nat.add_right_cancel kept).symm
  case sized => exact H.sized
  case load => exact H.load
  case fits => exact H.fits

end Maps
