import Mathlib.Data.List.Basic

/-!
# Ordered lists of pairs

Names with values in an order, where a name can have several pairs. What a reader of
the list sees of a name are its values; a list that is sorted by names is determined by
the values of every name.
-/

namespace PairLists

variable {α β γ δ : Type} [DecidableEq α] [DecidableEq γ]

/-- The values of a name, in order. -/
def valuesOf (name : α) (l : List (α × β)) : List β :=
  (l.filter fun p => p.1 = name).map Prod.snd

def get (name : α) (l : List (α × β)) : Option β := (valuesOf name l).head?

def has (name : α) (l : List (α × β)) : Bool := l.any fun p => p.1 = name

def append (name : α) (value : β) (l : List (α × β)) : List (α × β) := l ++ [(name, value)]

def delete (name : α) (l : List (α × β)) : List (α × β) := l.filter fun p => p.1 ≠ name

/-- The first pair of the name is replaced and the others are removed. -/
def set (name : α) (value : β) : List (α × β) → List (α × β)
  | [] => [(name, value)]
  | p :: rest => if p.1 = name then (name, value) :: delete name rest else p :: set name value rest

@[simp] theorem valuesOf_nil (name : α) : valuesOf name ([] : List (α × β)) = [] := rfl

@[simp] theorem valuesOf_cons (name : α) (p : α × β) (l : List (α × β)) :
    valuesOf name (p :: l) = if p.1 = name then p.2 :: valuesOf name l else valuesOf name l := by
  unfold valuesOf
  rw [List.filter_cons]
  by_cases eq : p.1 = name <;> simp [eq]

theorem valuesOf_concat (name : α) (a b : List (α × β)) :
    valuesOf name (a ++ b) = valuesOf name a ++ valuesOf name b := by
  simp [valuesOf]

theorem has_iff {name : α} {l : List (α × β)} : has name l = true ↔ valuesOf name l ≠ [] := by
  induction l with
  | nil => simp [has]
  | cons p l ih =>
    by_cases eq : p.1 = name
    · simp [has, eq]
    · simpa [has, eq] using ih

/-- Where every name has one pair, a pair has all values of its name. -/
theorem valuesOf_of_mem {l : List (α × β)} (distinct : (l.map Prod.fst).Nodup) {p : α × β}
    (h : p ∈ l) : valuesOf p.1 l = [p.2] := by
  have others {q : α × β} {l : List (α × β)} (notMem : q.1 ∉ l.map Prod.fst) :
      valuesOf q.1 l = [] := by
    unfold valuesOf
    rw [List.filter_eq_nil_iff.mpr, List.map_nil]
    intro r hr
    have ne : r.1 ≠ q.1 := fun eq => notMem (eq ▸ List.mem_map_of_mem hr)
    simpa using ne
  induction l with
  | nil => cases h
  | cons q l ih =>
    rw [List.map_cons, List.nodup_cons] at distinct
    rw [valuesOf_cons]
    rcases List.mem_cons.mp h with rfl | h
    · rw [if_pos rfl, others distinct.1]
    · rw [if_neg, ih distinct.2 h]
      intro eq
      exact distinct.1 (eq ▸ List.mem_map_of_mem h)

theorem valuesOf_append (k name : α) (value : β) (l : List (α × β)) :
    valuesOf k (append name value l) = valuesOf k l ++ if name = k then [value] else [] := by
  rw [append, valuesOf_concat, valuesOf_cons, valuesOf_nil]

theorem valuesOf_delete (k name : α) (l : List (α × β)) :
    valuesOf k (delete name l) = if k = name then [] else valuesOf k l := by
  induction l with
  | nil => simp [delete]
  | cons p l ih =>
    rw [delete] at ih ⊢
    by_cases gone : p.1 = name
    · rw [List.filter_cons_of_neg (by simpa using gone), ih, valuesOf_cons]
      by_cases eq : k = name
      · simp [eq]
      · rw [if_neg eq, if_neg eq, if_neg fun h => eq (h.symm.trans gone)]
    · rw [List.filter_cons_of_pos (by simpa using gone), valuesOf_cons, valuesOf_cons, ih]
      by_cases eq : k = name
      · simp [eq, gone]
      · simp [eq]

theorem valuesOf_set (k name : α) (value : β) (l : List (α × β)) :
    valuesOf k (set name value l) = if k = name then [value] else valuesOf k l := by
  induction l with
  | nil =>
    simp only [set, valuesOf_cons, valuesOf_nil]
    by_cases eq : k = name
    · simp [eq]
    · simp [eq, Ne.symm eq]
  | cons p l ih =>
    rw [set]
    by_cases here : p.1 = name
    · rw [if_pos here, valuesOf_cons, valuesOf_delete, valuesOf_cons]
      by_cases eq : k = name
      · simp [eq]
      · rw [if_neg (Ne.symm eq), if_neg eq, if_neg eq, if_neg fun h => eq (h.symm.trans here)]
    · rw [if_neg here, valuesOf_cons, ih, valuesOf_cons]
      by_cases eq : k = name
      · simp [eq, here]
      · simp [eq]

section Map

variable {f : α → γ} (injective : Function.Injective f) (g : β → δ)
include injective

theorem valuesOf_map (name : α) (l : List (α × β)) :
    valuesOf (f name) (l.map (Prod.map f g)) = (valuesOf name l).map g := by
  induction l with
  | nil => rfl
  | cons p l ih =>
    rw [List.map_cons, valuesOf_cons, valuesOf_cons, ih]
    by_cases eq : p.1 = name <;> simp [eq, injective.eq_iff]

theorem delete_map (name : α) (l : List (α × β)) :
    delete (f name) (l.map (Prod.map f g)) = (delete name l).map (Prod.map f g) := by
  unfold delete
  rw [List.filter_map]
  simp [Function.comp_def, injective.eq_iff]

theorem set_map (name : α) (value : β) (l : List (α × β)) :
    set (f name) (g value) (l.map (Prod.map f g)) = (set name value l).map (Prod.map f g) := by
  induction l with
  | nil => rfl
  | cons p l ih =>
    rw [List.map_cons, set, set, ih, delete_map injective g]
    by_cases eq : p.1 = name <;> simp [eq, injective.eq_iff]

end Map

section Sorted

variable (le : α → α → Bool)

/-- The pairs of one name keep their order. -/
def sortByName (l : List (α × β)) : List (α × β) := l.mergeSort fun p q => le p.1 q.1

/-- No name stands before a smaller one. -/
def SortedByName (l : List (α × β)) : Prop := l.Pairwise fun p q => le p.1 q.1 = true

variable {le} (trans : ∀ a b c, le a b = true → le b c = true → le a c = true)
  (total : ∀ a b, (le a b || le b a) = true)
include trans total

omit [DecidableEq α] in
theorem sorted_sortByName (l : List (α × β)) : SortedByName le (sortByName le l) :=
  List.pairwise_mergeSort (fun p q r => trans p.1 q.1 r.1) (fun p q => total p.1 q.1) l

theorem valuesOf_sortByName (name : α) (l : List (α × β)) :
    valuesOf name (sortByName le l) = valuesOf name l := by
  have refl (a : α) : le a a = true := by simpa using total a a
  have ties : (l.filter fun p => p.1 = name).Pairwise fun p q => le p.1 q.1 = true := by
    refine List.pairwise_of_forall_mem_list fun p hp q hq => ?_
    have hp' : p.1 = name := by simpa using (List.mem_filter.mp hp).2
    have hq' : q.1 = name := by simpa using (List.mem_filter.mp hq).2
    rw [hp', hq']
    exact refl name
  have kept := (List.sublist_mergeSort (fun p q r => trans p.1 q.1 r.1)
    (fun p q => total p.1 q.1) ties List.filter_sublist).filter fun p => p.1 = name
  rw [List.filter_filter] at kept
  simp only [Bool.and_self] at kept
  have length := ((List.mergeSort_perm l fun p q => le p.1 q.1).filter fun p => p.1 = name).length_eq
  unfold valuesOf sortByName
  rw [kept.eq_of_length length.symm]

omit [DecidableEq α] trans total in
theorem sorted_of_cons {p : α × β} {l : List (α × β)} (h : SortedByName le (p :: l)) :
    SortedByName le l := (List.pairwise_cons.mp h).2

omit trans in
/-- A sorted list is determined by the values of each name. -/
theorem eq_of_valuesOf (antisymm : ∀ a b, le a b = true → le b a = true → a = b)
    {l m : List (α × β)} (hl : SortedByName le l) (hm : SortedByName le m)
    (same : ∀ name, valuesOf name l = valuesOf name m) : l = m := by
  have refl (a : α) : le a a = true := by simpa using total a a
  -- a sorted list starts with a name that is below all that have values
  have first {p : α × β} {k : List (α × β)} (h : SortedByName le (p :: k)) {name : α}
      (some : valuesOf name (p :: k) ≠ []) : le p.1 name = true := by
    rw [← has_iff] at some
    obtain ⟨q, hq, eq⟩ := List.any_eq_true.mp some
    obtain rfl : q.1 = name := by simpa using eq
    rcases List.mem_cons.mp hq with rfl | hq
    · exact refl q.1
    · exact (List.pairwise_cons.mp h).1 q hq
  induction l generalizing m with
  | nil =>
    cases m with
    | nil => rfl
    | cons q m => simpa using same q.1
  | cons p l ih =>
    cases m with
    | nil => simpa using same p.1
    | cons q m =>
      have here (p : α × β) (k : List (α × β)) : valuesOf p.1 (p :: k) ≠ [] := by simp
      have names : p.1 = q.1 := by
        refine antisymm _ _ (first hl ?_) (first hm ?_)
        · rw [same]
          exact here q m
        · rw [← same]
          exact here p l
      have head := same p.1
      rw [valuesOf_cons, valuesOf_cons, if_pos rfl, if_pos names.symm] at head
      have values := (List.cons.inj head).1
      obtain rfl : p = q := Prod.ext names values
      refine congrArg (p :: ·) (ih (sorted_of_cons hl) (sorted_of_cons hm) fun name => ?_)
      have tails := same name
      rw [valuesOf_cons, valuesOf_cons] at tails
      split_ifs at tails
      · exact (List.cons.inj tails).2
      · exact tails

end Sorted

end PairLists
