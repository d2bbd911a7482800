import Mathlib.Data.Fintype.Card
import Goqjs.JsonRoundTrip
import Goqjs.ReferenceGraph

/-!
# When the writer throws

The stack of the objects that are being written is a path in the heap. An object that is met again
on it lies on a cycle, and a heap without one unfolds to a finite value. The C stack runs out where
objects are nested as deep as it has room for.
-/

namespace Quickjs

open ReferenceGraph Binary64

variable {n : Nat} {objs : Fin n → HeapObject n} {v w : HeapValue n} {i c : Fin n} {j : Json}

/-- The object that this is, if it is one. -/
def HeapValue.refs : HeapValue n → List (Fin n)
  | .object i => [i]
  | _ => []

/-- The objects among the elements or the properties of an object. -/
def HeapObject.refs (o : HeapObject n) : List (Fin n) := o.slots.flatMap HeapValue.refs

section Throws

variable (objs v)

def ReachesCycle : Prop :=
  ∃ i, Reachable (fun i => (objs i).refs) v.refs i ∧ OnCycle (fun i => (objs i).refs) i

def ReachesBigInt : Prop :=
  v = .bigInt ∨ ∃ i, Reachable (fun i => (objs i).refs) v.refs i ∧ .bigInt ∈ (objs i).slots

/-- The value reaches so many objects that are nested in one another, each in all that follow it. -/
def ReachesNested (room : Nat) : Prop :=
  ∃ nested : List (Fin n), nested.length = room ∧ nested.Nodup ∧
    nested.Pairwise (fun inner outer =>
      Relation.TransGen (Edge fun i => (objs i).refs) outer inner) ∧
    ∀ i ∈ nested, Reachable (fun i => (objs i).refs) v.refs i

end Throws

theorem item_means : ∀ {elements : List (HeapValue n)} {items : List Json},
    ItemsMean objs elements items → ∀ w ∈ elements, w.hidden = false →
      ∃ k ∈ items, Means objs w k
  | _, _, .nil, _, mem, _ => nomatch mem
  | _, _, .hole hidden rest, w, mem, visible => by
    rcases List.mem_cons.mp mem with rfl | mem
    · cases hidden.symm.trans visible
    · obtain ⟨k, memk, value⟩ := item_means rest w mem visible
      exact ⟨k, List.mem_cons_of_mem _ memk, value⟩
  | _, _, .item value rest, w, mem, visible => by
    rcases List.mem_cons.mp mem with rfl | mem
    · exact ⟨_, List.mem_cons_self, value⟩
    · obtain ⟨k, memk, value⟩ := item_means rest w mem visible
      exact ⟨k, List.mem_cons_of_mem _ memk, value⟩

theorem member_means : ∀ {props : List (Units × HeapValue n)} {fields : List (Units × Json)},
    MembersMean objs props fields → ∀ w ∈ props.map Prod.snd, w.hidden = false →
      ∃ f ∈ fields, Means objs w f.2
  | _, _, .nil, _, mem, _ => nomatch mem
  | _, _, .hidden hidden rest, w, mem, visible => by
    rcases List.mem_cons.mp mem with rfl | mem
    · cases hidden.symm.trans visible
    · exact member_means rest w mem visible
  | _, _, .member value rest, w, mem, visible => by
    rcases List.mem_cons.mp mem with rfl | mem
    · exact ⟨_, List.mem_cons_self, value⟩
    · obtain ⟨f, memf, value⟩ := member_means rest w mem visible
      exact ⟨f, List.mem_cons_of_mem _ memf, value⟩

/-- What an object holds has a value that is nested less deep. -/
theorem slot_means (h : Means objs (.object i) j) (mem : w ∈ (objs i).slots)
    (visible : w.hidden = false) : ∃ k, Means objs w k ∧ k.nesting < j.nesting := by
  cases h with
  | array object each =>
    rw [object] at mem
    obtain ⟨k, memk, value⟩ := item_means each w mem visible
    exact ⟨k, value, nesting_lt_array memk⟩
  | plain object each =>
    rw [object] at mem
    obtain ⟨f, memf, value⟩ := member_means each w mem visible
    exact ⟨f.2, value, nesting_lt_object (List.mem_map_of_mem memf)⟩

theorem mem_refs : c ∈ w.refs ↔ w = .object c := by
  cases w with
  | object i => simp [HeapValue.refs, eq_comm]
  | _ => simp [HeapValue.refs]

theorem edge_iff : Edge (fun i => (objs i).refs) i c ↔ .object c ∈ (objs i).slots := by
  simp only [Edge, HeapObject.refs, List.mem_flatMap, mem_refs]
  constructor
  · rintro ⟨w, mem, rfl⟩
    exact mem
  · exact fun mem => ⟨_, mem, rfl⟩

theorem path_means (path : Relation.TransGen (Edge fun i => (objs i).refs) i c)
    (h : Means objs (.object i) j) :
    ∃ k, Means objs (.object c) k ∧ k.nesting < j.nesting := by
  induction path with
  | single edge => exact slot_means h (edge_iff.mp edge) rfl
  | tail _ edge ih =>
    obtain ⟨k, value, smaller⟩ := ih
    obtain ⟨l, value', smaller'⟩ := slot_means value (edge_iff.mp edge) rfl
    exact ⟨l, value', smaller'.trans smaller⟩

theorem reachable_means (h : Means objs v j)
    (reach : Reachable (fun i => (objs i).refs) v.refs i) : ∃ k, Means objs (.object i) k := by
  apply reach.within (S := fun i => ∃ k, Means objs (.object i) k)
  · intro r root
    obtain rfl := mem_refs.mp root
    exact ⟨j, h⟩
  · rintro q ⟨k, value⟩ c ref
    obtain ⟨l, value', -⟩ := slot_means value (edge_iff.mp ref) rfl
    exact ⟨l, value'⟩

theorem Means.acyclic (h : Means objs v j) : ¬ ReachesCycle objs v := by
  rintro ⟨i, reach, cycle⟩
  obtain ⟨k, value⟩ := reachable_means h reach
  obtain ⟨l, value', smaller⟩ := path_means cycle value
  rw [value.unique value'] at smaller
  exact lt_irrefl _ smaller

theorem Means.noBigInt (h : Means objs v j) : ¬ ReachesBigInt objs v := by
  rintro (rfl | ⟨i, reach, mem⟩)
  · cases h
  · obtain ⟨k, value⟩ := reachable_means h reach
    obtain ⟨l, value', -⟩ := slot_means value mem rfl
    cases value'

variable {numberText : Double → Bytes} {gap indent : Units} {e : String}
  {write : HeapValue n → Except String Units}

theorem except_bind_error {ε α β : Type} {x : Except ε α} {f : α → Except ε β} {e : ε}
    (h : (x >>= f) = .error e) : x = .error e ∨ ∃ a, x = .ok a ∧ f a = .error e := by
  cases x with
  | error e' =>
    cases h
    exact .inl rfl
  | ok a => exact .inr ⟨a, rfl, h⟩

theorem hidden_or_same (v : HeapValue n) : (jsonCheck v).isUndefined = true ∨ jsonCheck v = v := by
  cases v <;> first | exact .inr rfl | exact .inl rfl

theorem jsonElements_throws {elements : List (HeapValue n)}
    (h : jsonElements write elements = .error e) :
    ∃ w, (w ∈ elements ∧ w.hidden = false ∨ w = .null ∧ elements ≠ []) ∧ write w = .error e := by
  induction elements with
  | nil => cases h
  | cons v elements ih =>
    rcases except_bind_error h with first | ⟨text, -, h⟩
    · split_ifs at first with hidden
      · exact ⟨.null, .inr ⟨rfl, List.cons_ne_nil v elements⟩, first⟩
      · rw [(hidden_or_same v).resolve_left hidden] at first
        exact ⟨v, .inl ⟨List.mem_cons_self, Bool.eq_false_iff.mpr hidden⟩, first⟩
    · rcases except_bind_error h with rest | ⟨others, -, done⟩
      · obtain ⟨w, mem, throws⟩ := ih rest
        refine ⟨w, mem.imp ?_ ?_, throws⟩
        · exact fun h => ⟨List.mem_cons_of_mem v h.1, h.2⟩
        · exact fun h => ⟨h.1, List.cons_ne_nil v elements⟩
      · cases done

theorem jsonMembers_throws {sep1 : Units} {props : List (Units × HeapValue n)}
    (h : jsonMembers write sep1 props = .error e) :
    ∃ w ∈ props.map Prod.snd, w.hidden = false ∧ write w = .error e := by
  induction props with
  | nil => cases h
  | cons prop props ih =>
    obtain ⟨name, v⟩ := prop
    have later (rest : jsonMembers write sep1 props = .error e) :
        ∃ w ∈ ((name, v) :: props).map Prod.snd, w.hidden = false ∧ write w = .error e := by
      obtain ⟨w, mem, throws⟩ := ih rest
      exact ⟨w, List.mem_cons_of_mem v mem, throws⟩
    simp only [jsonMembers] at h
    split_ifs at h with hidden
    · exact later h
    · rw [(hidden_or_same v).resolve_left hidden] at h
      rcases except_bind_error h with first | ⟨text, -, h⟩
      · exact ⟨v, List.mem_cons_self, Bool.eq_false_iff.mpr hidden, first⟩
      · rcases except_bind_error h with rest | ⟨others, -, done⟩
        · exact later rest
        · cases done

/-- What is written for an object: what it holds, and `null` in an array. -/
def Holds (objs : Fin n → HeapObject n) (i : Fin n) (w : HeapValue n) : Prop :=
  w ∈ (objs i).slots ∧ w.hidden = false ∨
    w = .null ∧ ∃ elements, objs i = .array elements ∧ elements ≠ []

/-- An error of an object is one of what it holds. -/
theorem object_throws {room : Nat} {stack : List (Fin n)} (fresh : i ∉ stack)
    (h : jsonToStr objs numberText gap (room + 1) stack indent (.object i) = .error e) :
    ∃ w, Holds objs i w ∧
      jsonToStr objs numberText gap room (i :: stack) (indent ++ gap) w = .error e := by
  cases object : objs i with
  | array elements =>
    rw [jsonToStr_array fresh object] at h
    cases parts : jsonElements (jsonToStr objs numberText gap room (i :: stack) (indent ++ gap))
        elements with
    | error e' =>
      rw [parts] at h
      cases h
      obtain ⟨w, mem, throws⟩ := jsonElements_throws parts
      refine ⟨w, mem.imp ?_ ?_, throws⟩
      · rw [object]
        exact id
      · exact fun h => ⟨h.1, elements, object, h.2⟩
    | ok texts =>
      rw [parts] at h
      cases h
  | plain props wellFormed =>
    rw [jsonToStr_plain fresh object] at h
    cases parts : jsonMembers (jsonToStr objs numberText gap room (i :: stack) (indent ++ gap))
        (if gap = [] then [] else [0x20]) props with
    | error e' =>
      rw [parts] at h
      cases h
      obtain ⟨w, mem, visible, throws⟩ := jsonMembers_throws parts
      refine ⟨w, .inl ⟨?_, visible⟩, throws⟩
      rw [object]
      exact mem
    | ok texts =>
      rw [parts] at h
      cases h

theorem Holds.means (h : Holds objs i w) (value : Means objs (.object i) j) :
    ∃ k, Means objs w k ∧ k.nesting < j.nesting := by
  rcases h with ⟨mem, visible⟩ | ⟨rfl, elements, object, some⟩
  · exact slot_means value mem visible
  · refine ⟨.null, .null, ?_⟩
    cases value with
    | array object' each =>
      cases object.symm.trans object'
      cases each with
      | nil => exact absurd rfl some
      | hole _ _ => exact nesting_lt_array List.mem_cons_self
      | @item _ _ k _ _ _ => exact lt_of_le_of_lt k.nesting_pos (nesting_lt_array List.mem_cons_self)
    | plain object' each => cases object.symm.trans object'

/-- What unfolds to a value is written without an error if there is room for its nesting. -/
theorem Means.not_throws {room : Nat} {stack : List (Fin n)} (h : Means objs v j)
    (enough : j.nesting ≤ room)
    (within : ∀ k ∈ stack, ∃ whole, Means objs (.object k) whole ∧ j.nesting < whole.nesting) :
    jsonToStr objs numberText gap room stack indent v ≠ .error e := by
  induction room generalizing j v stack indent with
  | zero => exact absurd j.nesting_pos (by omega)
  | succ room ih =>
    intro throws
    cases v with
    | object i =>
      have fresh : i ∉ stack := by
        intro mem
        obtain ⟨whole, h', larger⟩ := within i mem
        rw [h.unique h'] at larger
        exact lt_irrefl _ larger
      obtain ⟨w, holds, throws⟩ := object_throws fresh throws
      obtain ⟨k, value, smaller⟩ := holds.means h
      refine ih value (by omega) ?_ throws
      intro l mem
      rcases List.mem_cons.mp mem with rfl | mem
      · exact ⟨j, h, smaller⟩
      · obtain ⟨whole, h', larger⟩ := within l mem
        exact ⟨whole, h', smaller.trans larger⟩
    | bigInt => cases h
    | _ => cases throws

/-- Why the writer may throw, with `limit` nested calls of it: an object that contains itself, a
BigInt, or objects that are nested too deep. -/
structure Throws (objs : Fin n → HeapObject n) (root : HeapValue n) (limit : Nat) (e : String) :
    Prop where
  circular : e = "circular reference" → ReachesCycle objs root
  bigInt : e = "BigInt are forbidden in JSON.stringify" → ReachesBigInt objs root
  deep : e = stackOverflow → ReachesNested objs root limit
  known : e = "circular reference" ∨ e = "BigInt are forbidden in JSON.stringify" ∨ e = stackOverflow

theorem throws_circular {root : HeapValue n} {limit : Nat} (h : ReachesCycle objs root) :
    Throws objs root limit "circular reference" :=
  ⟨fun _ => h, fun e => absurd e (by decide), fun e => absurd e (by decide), .inl rfl⟩

theorem throws_bigInt {root : HeapValue n} {limit : Nat} (h : ReachesBigInt objs root) :
    Throws objs root limit "BigInt are forbidden in JSON.stringify" :=
  ⟨fun e => absurd e (by decide), fun _ => h, fun e => absurd e (by decide), .inr (.inl rfl)⟩

theorem throws_deep {root : HeapValue n} {limit : Nat} (h : ReachesNested objs root limit) :
    Throws objs root limit stackOverflow :=
  ⟨fun e => absurd e (by decide), fun e => absurd e (by decide), fun _ => h, .inr (.inr rfl)⟩

/-- Every object on the stack leads to what is written next. -/
theorem jsonToStr_throws (root : HeapValue n) {room limit : Nat} {stack : List (Fin n)}
    (distinct : stack.Nodup) (used : room + stack.length = limit)
    (nested : stack.Pairwise fun inner outer =>
      Relation.TransGen (Edge fun i => (objs i).refs) outer inner)
    (reached : ∀ k ∈ stack, Reachable (fun i => (objs i).refs) root.refs k)
    (path : ∀ k ∈ stack, ∀ c ∈ v.refs, Relation.TransGen (Edge fun i => (objs i).refs) k c)
    (reach : ∀ c ∈ v.refs, Reachable (fun i => (objs i).refs) root.refs c)
    (held : v = .bigInt → ReachesBigInt objs root)
    (h : jsonToStr objs numberText gap room stack indent v = .error e) :
    Throws objs root limit e := by
  induction room generalizing v stack indent with
  | zero =>
    cases h
    exact throws_deep ⟨stack, by omega, distinct, nested, reached⟩
  | succ room ih =>
    cases v with
    | object i =>
      have at_i := reach i (mem_refs.mpr rfl)
      by_cases fresh : i ∈ stack
      · simp only [jsonToStr, if_pos fresh] at h
        cases h
        exact throws_circular ⟨i, at_i, path i fresh i (mem_refs.mpr rfl)⟩
      · obtain ⟨w, mem, throws⟩ := object_throws fresh h
        have edge : ∀ c ∈ w.refs, Edge (fun i => (objs i).refs) i c := by
          intro c ref
          obtain rfl := mem_refs.mp ref
          rcases mem with ⟨mem, -⟩ | ⟨absurd, -⟩
          · exact edge_iff.mpr mem
          · cases absurd
        have above : ∀ k ∈ stack, Relation.TransGen (Edge fun i => (objs i).refs) k i :=
          fun k memk => path k memk i (mem_refs.mpr rfl)
        apply ih (List.nodup_cons.mpr ⟨fresh, distinct⟩) (by rw [List.length_cons]; omega)
          (List.pairwise_cons.mpr ⟨above, nested⟩) (List.forall_mem_cons.mpr ⟨at_i, reached⟩) _ _ _
          throws
        · intro k memk c ref
          rcases List.mem_cons.mp memk with rfl | memk
          · exact .single (edge c ref)
          · exact (above k memk).tail (edge c ref)
        · exact fun c ref => .child at_i (edge c ref)
        · rintro rfl
          rcases mem with ⟨mem, -⟩ | ⟨absurd, -⟩
          · exact .inr ⟨i, at_i, mem⟩
          · cases absurd
    | bigInt =>
      cases h
      exact throws_bigInt (held rfl)
    | _ => cases h

theorem stringify_throws {room : Nat} {space : HeapValue n}
    (h : jsonStringify objs numberText room space v = .error e) : Throws objs v room e := by
  cases hidden : v.hidden with
  | true =>
    rw [stringify_hidden hidden] at h
    cases h
  | false =>
    rw [stringify_visible hidden] at h
    cases written : jsonToStr objs numberText (jsonGap space) room [] [] v with
    | error e' =>
      rw [written] at h
      cases h
      exact jsonToStr_throws v List.nodup_nil rfl .nil nofun nofun (fun c ref => .root ref) .inl
        written
    | ok text =>
      rw [written] at h
      cases h

/-- No more objects can be nested in one another than there are. -/
theorem not_reachesNested {room : Nat} (enough : n < room) : ¬ ReachesNested objs v room := by
  rintro ⟨nested, rfl, distinct, -⟩
  have short := distinct.length_le_card
  rw [Fintype.card_fin] at short
  omega

theorem hidden_clean (hidden : v.hidden = true) : ¬ (ReachesCycle objs v ∨ ReachesBigInt objs v) := by
  have alone : v.refs = [] ∧ v ≠ .bigInt := by
    cases v with
    | undefined => exact ⟨rfl, nofun⟩
    | symbol => exact ⟨rfl, nofun⟩
    | function => exact ⟨rfl, nofun⟩
    | _ => cases hidden
  have unreachable : ∀ i, ¬ Reachable (fun i => (objs i).refs) v.refs i := fun i reach =>
    reach.within (S := fun _ => False) (by simp [alone.1]) (fun _ absurd => absurd.elim)
  rintro (⟨i, reach, -⟩ | bigInt | ⟨i, reach, -⟩)
  · exact unreachable i reach
  · exact alone.2 bigInt
  · exact unreachable i reach

/-- A value that leads to no cycle and to no BigInt unfolds. -/
theorem means_of_clean (visible : v.hidden = false) (acyclic : ¬ ReachesCycle objs v)
    (noBigInt : ¬ ReachesBigInt objs v) : ∃ j, Means objs v j := by
  cases result : jsonStringify objs (fun _ => []) (n + 1) .undefined v with
  | error e =>
    have throws := stringify_throws result
    rcases throws.known with circular | bigInt | deep
    · exact absurd (throws.circular circular) acyclic
    · exact absurd (throws.bigInt bigInt) noBigInt
    · exact absurd (throws.deep deep) (not_reachesNested n.lt_succ_self)
  | ok text =>
    cases text with
    | none =>
      rw [stringify_visible visible] at result
      cases written : jsonToStr objs (fun _ => []) (jsonGap .undefined) (n + 1) [] [] v <;>
        rw [written] at result <;> cases result
    | some text =>
      obtain ⟨j, value, -⟩ := stringify_text result
      exact ⟨j, value⟩

end Quickjs
