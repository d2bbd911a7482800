import Mathlib.Data.List.Range
import Mathlib.Logic.Function.Basic

/-!
# Maps in the order of their keys

A map as the list of the entries that it was ever given. A deleted entry leaves a hole behind, so
that a place in the list keeps its meaning; a cursor is such a place. Nothing here mentions a
particular program.
-/

namespace OrderedMaps

universe u v

variable {κ : Type u} {V : Type v}

section
variable (same : κ → κ → Bool)

def hit (k : κ) (e : Option (κ × V)) : Bool := e.any fun e => same e.1 k

def lookup (l : List (Option (κ × V))) (k : κ) : Option V :=
  ((l.find? (hit same k)).bind id).map Prod.snd

/-- A value for a key: in its place, or at the end. -/
def write (l : List (Option (κ × V))) (k : κ) (v : V) : List (Option (κ × V)) :=
  if l.any (hit same k) then l.map fun e => if hit same k e then e.map fun e => (e.1, v) else e
  else l ++ [some (k, v)]

def erase (l : List (Option (κ × V))) (k : κ) : List (Option (κ × V)) :=
  l.map fun e => if hit same k e then none else e

end

variable {α : Type u}

def size (l : List (Option α)) : Nat := l.countP Option.isSome

/-- The first place from here on that has an entry. -/
def firstFrom (l : List (Option α)) (p : Nat) : Option Nat :=
  (List.range' p (l.length - p)).find? fun t => (l[t]?).join.isSome

/-- The list whose places hold these entries. -/
def places (f : Nat → Option α) (n : Nat) : List (Option α) := (List.range n).map f

variable {same : κ → κ → Bool} {k k₀ : κ} {v v₀ : V} {f : Nat → Option (κ × V)} {n r t p : Nat}

@[simp] theorem length_places (f : Nat → Option α) (n : Nat) : (places f n).length = n := by
  simp [places]

theorem getElem?_places (f : Nat → Option α) (inside : t < n) : (places f n)[t]? = some (f t) := by
  rw [places, List.getElem?_map, List.getElem?_range inside]
  rfl

theorem places_succ (f : Nat → Option α) (n : Nat) : places f (n + 1) = places f n ++ [f n] := by
  rw [places, List.range_succ, List.map_append, ← places]
  rfl

theorem places_congr {f g : Nat → Option α} (same : ∀ t < n, f t = g t) :
    places f n = places g n :=
  List.map_congr_left fun t mem => same t (List.mem_range.mp mem)

theorem find?_sorted {test : Nat → Bool} {l : List Nat} (sorted : l.Pairwise (· < ·)) :
    l.find? test = some t ↔ t ∈ l ∧ test t = true ∧ ∀ u ∈ l, test u = true → t ≤ u := by
  induction l with
  | nil => simp
  | cons a l ih =>
    obtain ⟨less, sorted⟩ := List.pairwise_cons.mp sorted
    have ih := ih sorted
    rw [List.find?_cons]
    cases at_a : test a with
    | true =>
      constructor
      · intro found
        obtain rfl := Option.some.inj found
        refine ⟨List.mem_cons_self, at_a, fun u mem _ => ?_⟩
        rcases List.mem_cons.mp mem with rfl | mem
        · exact Nat.le_refl _
        · exact Nat.le_of_lt (less u mem)
      · rintro ⟨mem, -, least⟩
        rcases List.mem_cons.mp mem with rfl | mem
        · rfl
        · have := least a List.mem_cons_self at_a
          have := less t mem
          omega
    | false =>
      rw [ih]
      constructor
      · rintro ⟨mem, passes, least⟩
        refine ⟨List.mem_cons_of_mem a mem, passes, fun u mem_u passes_u => ?_⟩
        rcases List.mem_cons.mp mem_u with rfl | mem_u
        · rw [at_a] at passes_u
          cases passes_u
        · exact least u mem_u passes_u
      · rintro ⟨mem, passes, least⟩
        rcases List.mem_cons.mp mem with rfl | mem
        · rw [at_a] at passes
          cases passes
        · exact ⟨mem, passes, fun u mem_u => least u (List.mem_cons_of_mem a mem_u)⟩

/-- Two ordered lists in which the same places pass a test find the same one. -/
theorem find?_sorted_congr {test : Nat → Bool} {l m : List Nat} (sorted_l : l.Pairwise (· < ·))
    (sorted_m : m.Pairwise (· < ·)) (agree : ∀ t, test t = true → (t ∈ l ↔ t ∈ m)) :
    l.find? test = m.find? test := by
  ext t
  rw [find?_sorted sorted_l, find?_sorted sorted_m]
  constructor
  · rintro ⟨mem, passes, least⟩
    exact ⟨(agree t passes).mp mem, passes,
      fun u mem_u passes_u => least u ((agree u passes_u).mpr mem_u) passes_u⟩
  · rintro ⟨mem, passes, least⟩
    exact ⟨(agree t passes).mpr mem, passes,
      fun u mem_u passes_u => least u ((agree u passes_u).mp mem_u) passes_u⟩

/-- An ordered list of the entries from a place on finds the first of them. -/
theorem find?_eq_firstFrom {f : Nat → Option α} {l : List Nat} (sorted : l.Pairwise (· < ·))
    (mem_iff : ∀ t, (f t).isSome = true → (t ∈ l ↔ p ≤ t))
    (inside : ∀ t, (f t).isSome = true → t < n) :
    l.find? (fun t => (f t).isSome) = firstFrom (places f n) p := by
  have tests : firstFrom (places f n) p =
      (List.range' p (n - p)).find? fun t => (f t).isSome := by
    rw [firstFrom, length_places, ← List.head?_filter, ← List.head?_filter]
    apply congrArg List.head?
    apply List.filter_congr
    intro t mem
    obtain ⟨from_p, to_n⟩ := List.mem_range'_1.mp mem
    rw [getElem?_places f (by omega)]
    rfl
  rw [tests]
  apply find?_sorted_congr sorted (List.pairwise_lt_range' (s := p) (n := n - p))
  intro t there
  have := inside t there
  rw [mem_iff t there, List.mem_range'_1]
  omega

theorem firstFrom_lt {l : List (Option α)} (found : firstFrom l p = some t) : t < l.length := by
  have := List.mem_range'_1.mp (List.mem_of_find?_eq_some found)
  omega

theorem any_places : (places f n).any (hit same k) = true ↔ ∃ t < n, hit same k (f t) = true := by
  simp [places, List.any_eq_true]

/-- The only entry of a key. -/
theorem lookup_of_hit (inside : r < n) (at_r : f r = some (k₀, v₀)) (hits : same k₀ k = true)
    (only : ∀ t, hit same k (f t) = true → t = r) : lookup same (places f n) k = some v₀ := by
  have found : (List.range n).find? (fun t => hit same k (f t)) = some r := by
    rw [find?_sorted List.pairwise_lt_range, List.mem_range, at_r]
    exact ⟨inside, hits, fun u _ passes => Nat.le_of_eq (only u passes).symm⟩
  have : (places f n).find? (hit same k) = some (f r) := by
    rw [places, List.find?_map]
    exact congrArg (Option.map f) found
  rw [lookup, this, at_r]
  rfl

theorem lookup_of_miss (miss : ∀ t, hit same k (f t) = false) :
    lookup same (places f n) k = none := by
  have : (places f n).find? (hit same k) = none := by
    rw [List.find?_eq_none]
    intro e mem
    obtain ⟨t, -, rfl⟩ := List.mem_map.mp mem
    simp [miss t]
  rw [lookup, this]
  rfl

theorem write_of_hit (inside : r < n) (at_r : f r = some (k₀, v₀)) (hits : same k₀ k = true)
    (only : ∀ t, hit same k (f t) = true → t = r) (v : V) :
    write same (places f n) k v = places (Function.update f r (some (k₀, v))) n := by
  have there : (places f n).any (hit same k) = true :=
    any_places.mpr ⟨r, inside, by rw [at_r]; exact hits⟩
  rw [write, if_pos there, places, places, List.map_map]
  apply List.map_congr_left
  intro t _
  rw [Function.comp_apply]
  rcases eq_or_ne t r with rfl | ne
  · rw [Function.update_self, at_r, if_pos (show hit same k (some (k₀, v₀)) = true from hits)]
    rfl
  · rw [Function.update_of_ne ne, if_neg fun passes => ne (only t passes)]

theorem write_of_miss (miss : ∀ t, hit same k (f t) = false) (v : V) :
    write same (places f n) k v = places (Function.update f n (some (k, v))) (n + 1) := by
  have absent : ¬(places f n).any (hit same k) = true := by
    rw [any_places]
    rintro ⟨t, -, passes⟩
    rw [miss t] at passes
    cases passes
  rw [write, if_neg absent, places_succ, Function.update_self]
  congr 1
  exact places_congr fun t less => (Function.update_of_ne (Nat.ne_of_lt less) _ f).symm

theorem erase_of_hit (at_r : f r = some (k₀, v₀)) (hits : same k₀ k = true)
    (only : ∀ t, hit same k (f t) = true → t = r) :
    erase same (places f n) k = places (Function.update f r none) n := by
  rw [erase, places, places, List.map_map]
  apply List.map_congr_left
  intro t _
  rw [Function.comp_apply]
  rcases eq_or_ne t r with rfl | ne
  · rw [Function.update_self, at_r, if_pos (show hit same k (some (k₀, v₀)) = true from hits)]
  · rw [Function.update_of_ne ne, if_neg fun passes => ne (only t passes)]

theorem erase_of_miss (miss : ∀ t, hit same k (f t) = false) :
    erase same (places f n) k = places f n := by
  rw [erase, places, List.map_map]
  apply List.map_congr_left
  intro t _
  rw [Function.comp_apply, if_neg (by simp [miss t])]

theorem length_write_le (l : List (Option (κ × V))) (k : κ) (v : V) :
    (write same l k v).length ≤ l.length + 1 := by
  rw [write]
  split_ifs
  · rw [List.length_map]
    exact Nat.le_succ _
  · rw [List.length_append, List.length_singleton]

@[simp] theorem length_erase (l : List (Option (κ × V))) (k : κ) :
    (erase same l k).length = l.length := List.length_map _

@[simp] theorem size_append (l m : List (Option α)) : size (l ++ m) = size l + size m :=
  List.countP_append

/-- What one place adds to the size. -/
theorem size_update {f : Nat → Option α} (inside : r < n) (x : Option α) :
    size (places (Function.update f r x) n) + (f r).toList.length =
      size (places f n) + x.toList.length := by
  induction n with
  | zero => omega
  | succ n ih =>
    rw [places_succ, places_succ, size_append, size_append]
    rcases Nat.lt_succ_iff_lt_or_eq.mp inside with less | rfl
    · have := ih less
      rw [Function.update_of_ne (Nat.ne_of_gt less)]
      omega
    · have before : places (Function.update f r x) r = places f r :=
        places_congr fun t less => Function.update_of_ne (Nat.ne_of_lt less) x f
      rw [before, Function.update_self]
      cases f r <;> cases x <;> simp [size]

end OrderedMaps
