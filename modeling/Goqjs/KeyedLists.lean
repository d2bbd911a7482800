import Mathlib.Data.List.Nodup

/-!
# Lists of entries under keys

A list of key and value pairs, written in place: a key that is there keeps its place
and gets the new value, a new one goes to the end. Nothing here mentions a particular
program.
-/

namespace KeyedLists

universe u v

variable {κ : Type u} {β : Type v} [BEq κ]

def find (l : List (κ × β)) (k : κ) : Option β := (l.find? (fun e => e.1 == k)).map Prod.snd

def set (l : List (κ × β)) (k : κ) (b : β) : List (κ × β) :=
  if l.any (fun e => e.1 == k) then l.map (fun e => if e.1 == k then (k, b) else e)
  else l ++ [(k, b)]

variable {l : List (κ × β)} {k k' : κ} {b : β}

theorem find_append (l l' : List (κ × β)) (k : κ) : find (l ++ l') k = (find l k).or (find l' k) := by
  simp only [find, List.find?_append]
  cases l.find? (fun e => e.1 == k) <;> rfl

variable [LawfulBEq κ]

theorem find_cons_self (b : β) (l : List (κ × β)) : find ((k, b) :: l) k = some b := by
  simp [find]

theorem find_cons_ne {e : κ × β} (ne : e.1 ≠ k) (l : List (κ × β)) :
    find (e :: l) k = find l k := by
  simp [find, ne]

theorem mem_of_find (h : find l k = some b) : (k, b) ∈ l := by
  obtain ⟨e, found, rfl⟩ := Option.map_eq_some_iff.mp h
  have same : e.1 = k := by simpa using List.find?_some found
  subst same
  exact List.mem_of_find?_eq_some found

theorem find_eq_none_iff : find l k = none ↔ k ∉ l.map Prod.fst := by
  simp only [find, Option.map_eq_none_iff, List.find?_eq_none, List.mem_map, beq_iff_eq]
  constructor
  · rintro h ⟨e, mem, rfl⟩
    exact h e mem rfl
  · intro h e mem same
    exact h ⟨e, mem, same⟩

/-- Where no key stands twice, every entry is found. -/
theorem find_of_mem (distinct : (l.map Prod.fst).Nodup) (mem : (k, b) ∈ l) :
    find l k = some b := by
  induction l with
  | nil => cases mem
  | cons e l ih =>
    obtain ⟨fresh, rest⟩ := List.nodup_cons.mp distinct
    rcases List.mem_cons.mp mem with rfl | old
    · exact find_cons_self b l
    · have ne : e.1 ≠ k := by
        rintro rfl
        exact fresh (List.mem_map.mpr ⟨_, old, rfl⟩)
      rw [find_cons_ne ne]
      exact ih rest old

theorem any_iff : l.any (fun e => e.1 == k) = true ↔ k ∈ l.map Prod.fst := by
  simp [List.any_eq_true]

theorem set_of_mem (h : k ∈ l.map Prod.fst) :
    set l k b = l.map (fun e => if e.1 == k then (k, b) else e) :=
  if_pos (any_iff.mpr h)

theorem set_of_notMem (h : k ∉ l.map Prod.fst) : set l k b = l ++ [(k, b)] :=
  if_neg fun mem => h (any_iff.mp mem)

theorem keys_set (l : List (κ × β)) (k : κ) (b : β) : (set l k b).map Prod.fst =
    if k ∈ l.map Prod.fst then l.map Prod.fst else l.map Prod.fst ++ [k] := by
  split_ifs with mem
  · rw [set_of_mem mem, List.map_map]
    refine List.map_congr_left fun e _ => ?_
    by_cases same : e.1 = k <;> simp [same]
  · rw [set_of_notMem mem, List.map_append]
    rfl

theorem nodup_set (distinct : (l.map Prod.fst).Nodup) (k : κ) (b : β) :
    ((set l k b).map Prod.fst).Nodup := by
  rw [keys_set]
  split_ifs with mem
  · exact distinct
  · exact distinct.append (List.nodup_singleton k) (List.disjoint_singleton.mpr mem)

theorem mem_keys_set : k' ∈ (set l k b).map Prod.fst ↔ k' = k ∨ k' ∈ l.map Prod.fst := by
  rw [keys_set]
  split_ifs with mem
  · constructor
    · exact .inr
    · rintro (rfl | old)
      · exact mem
      · exact old
  · rw [List.mem_append, List.mem_singleton, or_comm]

theorem find_set_self (l : List (κ × β)) (k : κ) (b : β) : find (set l k b) k = some b := by
  by_cases mem : k ∈ l.map Prod.fst
  · rw [set_of_mem mem]
    induction l with
    | nil => cases mem
    | cons e l ih =>
      rw [List.map_cons]
      by_cases head : e.1 = k
      · rw [if_pos (beq_iff_eq.mpr head)]
        exact find_cons_self b _
      · rw [if_neg (by simpa using head), find_cons_ne head]
        exact ih ((List.mem_cons.mp mem).resolve_left (Ne.symm head))
  · rw [set_of_notMem mem, find_append, find_eq_none_iff.mpr mem]
    exact find_cons_self b []

/-- Writing what is there already. -/
theorem set_of_find (distinct : (l.map Prod.fst).Nodup) (h : find l k = some b) : set l k b = l := by
  have unchanged : ∀ e ∈ l, (if e.1 == k then (k, b) else e) = e := by
    intro e mem
    by_cases same : e.1 = k
    · subst same
      have found := find_of_mem distinct mem
      rw [h] at found
      simp [Option.some.inj found]
    · simp [same]
  rw [set_of_mem (List.mem_map.mpr ⟨_, mem_of_find h, rfl⟩), List.map_congr_left unchanged,
    List.map_id']

/-- Writing changes what is found under one key. -/
theorem find_set_ne (l : List (κ × β)) (b : β) (ne : k' ≠ k) :
    find (set l k b) k' = find l k' := by
  by_cases mem : k ∈ l.map Prod.fst
  · rw [set_of_mem mem]
    clear mem
    induction l with
    | nil => rfl
    | cons e l ih =>
      rw [List.map_cons]
      by_cases head : e.1 = k
      · have other : e.1 ≠ k' := fun same => ne (same.symm.trans head)
        rw [if_pos (beq_iff_eq.mpr head), find_cons_ne (Ne.symm ne), find_cons_ne other]
        exact ih
      · rw [if_neg (by simpa using head)]
        by_cases here : e.1 = k'
        · subst here
          rw [find_cons_self e.2, find_cons_self e.2]
        · rw [find_cons_ne here, find_cons_ne here]
          exact ih
  · rw [set_of_notMem mem, find_append, find_cons_ne (Ne.symm ne)]
    exact Option.or_none

end KeyedLists
