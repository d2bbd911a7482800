import Mathlib.Data.List.Nodup
import Mathlib.Logic.Function.Basic

/-!
# Tables of buckets

A table of lists in which every member stands once, in the bucket that is its own. Nothing here
mentions a particular program.
-/

namespace Buckets

universe u

variable {ι : Type u}

/-- Each bucket lists the members whose own bucket it is. -/
def Filed (table : List (List ι)) (slot : ι → Option Nat) : Prop :=
  ∀ b, (table.getD b []).Nodup ∧ ∀ r, r ∈ table.getD b [] ↔ slot r = some b

/-- A member goes to the end of its bucket. -/
def file (slot : ι → Option Nat) (table : List (List ι)) (r : ι) : List (List ι) :=
  match slot r with
  | none => table
  | some b => table.modify b fun l => l ++ [r]

variable {table : List (List ι)} {slot slot' : ι → Option Nat} {b : Nat} {r : ι}

theorem Filed.congr (F : Filed table slot) (same : ∀ r, slot' r = slot r) : Filed table slot' := by
  obtain rfl : slot' = slot := funext same
  exact F

theorem filed_replicate (n : Nat) : Filed (List.replicate n ([] : List ι)) fun _ => none := by
  have empty : ∀ b, (List.replicate n ([] : List ι)).getD b [] = [] := by
    intro b
    rw [List.getD_eq_getElem?_getD, List.getElem?_replicate]
    split_ifs <;> rfl
  intro b
  rw [empty b]
  exact ⟨List.nodup_nil, fun r => by simp⟩

theorem getD_modify (inside : b < table.length) (f : List ι → List ι) (c : Nat) :
    (table.modify b f).getD c [] = if b = c then f (table.getD c []) else table.getD c [] := by
  rw [List.getD_eq_getElem?_getD, List.getElem?_modify, List.getD_eq_getElem?_getD]
  split_ifs with here
  · subst here
    rw [List.getElem?_eq_getElem inside]
    rfl
  · simp

@[simp] theorem length_file (slot : ι → Option Nat) (table : List (List ι)) (r : ι) :
    (file slot table r).length = table.length := by
  rw [file]
  cases slot r <;> simp

theorem length_foldl_file (slot : ι → Option Nat) (l : List ι) (table : List (List ι)) :
    (l.foldl (file slot) table).length = table.length := by
  induction l generalizing table with
  | nil => rfl
  | cons r l ih => rw [List.foldl_cons, ih, length_file]

section
variable [DecidableEq ι]

theorem Filed.add (F : Filed table slot) (absent : slot r = none) (inside : b < table.length) :
    Filed (table.modify b fun l => l ++ [r]) (Function.update slot r (some b)) := by
  have not_mem : ∀ c, r ∉ table.getD c [] := by
    intro c mem
    rw [(F c).2, absent] at mem
    cases mem
  intro c
  rw [getD_modify inside]
  obtain ⟨nodup, mem_iff⟩ := F c
  split_ifs with here
  · subst here
    refine ⟨nodup.append (List.nodup_singleton r) (by simpa using not_mem b), fun t => ?_⟩
    rw [List.mem_append, List.mem_singleton, mem_iff]
    rcases eq_or_ne t r with rfl | ne
    · simp
    · simp [ne]
  · refine ⟨nodup, fun t => ?_⟩
    rw [mem_iff]
    rcases eq_or_ne t r with rfl | ne
    · simp [absent, here]
    · simp [ne]

theorem Filed.remove (F : Filed table slot) (r : ι) :
    Filed (table.map fun l => l.erase r) (Function.update slot r none) := by
  intro c
  have here : (table.map fun l => l.erase r).getD c [] = (table.getD c []).erase r := by
    rw [List.getD_eq_getElem?_getD, List.getElem?_map, List.getD_eq_getElem?_getD]
    cases table[c]? <;> rfl
  obtain ⟨nodup, mem_iff⟩ := F c
  rw [here]
  refine ⟨nodup.erase r, fun t => ?_⟩
  rw [nodup.mem_erase_iff, mem_iff]
  rcases eq_or_ne t r with rfl | ne
  · simp
  · simp [ne]

/-- Members that are filed one after the other. -/
theorem Filed.foldl {before : ι → Option Nat} {l : List ι} (F : Filed table before)
    (slot : ι → Option Nat) (distinct : l.Nodup) (absent : ∀ r ∈ l, before r = none)
    (inside : ∀ r b, slot r = some b → b < table.length) :
    Filed (l.foldl (file slot) table) fun r => if r ∈ l then slot r else before r := by
  induction l generalizing table before with
  | nil => exact F.congr fun r => if_neg List.not_mem_nil
  | cons r l ih =>
    obtain ⟨fresh, distinct⟩ := List.nodup_cons.mp distinct
    rw [List.foldl_cons]
    have filed : Filed (file slot table r) (Function.update before r (slot r)) := by
      rw [file]
      cases at_r : slot r with
      | none =>
        apply F.congr
        intro t
        rcases eq_or_ne t r with rfl | ne
        · rw [Function.update_self, absent t List.mem_cons_self]
        · rw [Function.update_of_ne ne]
      | some b => exact F.add (absent r List.mem_cons_self) (inside r b at_r)
    have rest := ih filed distinct (fun t mem => by
      rw [Function.update_of_ne (ne_of_mem_of_not_mem mem fresh)]
      exact absent t (List.mem_cons_of_mem r mem)) (by simpa using inside)
    apply rest.congr
    intro t
    rcases eq_or_ne t r with rfl | ne
    · simp [fresh]
    · simp [ne]

end

end Buckets
