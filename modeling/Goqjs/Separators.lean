import Mathlib.Data.List.Basic

/-!
# Cutting a list at a separator

`cut` stops at the first separator and `cutLast` at the last one; both say whether
there was one. Gluing what they return gives the list back, and a glued list is
cut where it was glued if the separator does not stand on the wrong side of it.
-/

namespace Separators

universe u

variable {α : Type u}

/-- A second part brings its separator with it. -/
def led (c : α) : Option (List α) → List α
  | none => []
  | some after => c :: after

/-- A first part brings its separator with it. -/
def closed (c : α) : Option (List α) → List α
  | none => []
  | some before => before ++ [c]

@[simp] theorem led_none (c : α) : led c none = [] := rfl
@[simp] theorem led_some (c : α) (l : List α) : led c (some l) = c :: l := rfl
@[simp] theorem closed_none (c : α) : closed c none = [] := rfl
@[simp] theorem closed_some (c : α) (l : List α) : closed c (some l) = l ++ [c] := rfl

theorem reverse_led (c : α) (o : Option (List α)) :
    (led c o).reverse = closed c (o.map List.reverse) := by
  cases o <;> simp

variable [DecidableEq α]

/-- What stands before the first `c`, and what stands behind it. -/
def cut (c : α) : List α → List α × Option (List α)
  | [] => ([], none)
  | a :: rest => if a = c then ([], some rest) else (a :: (cut c rest).1, (cut c rest).2)

/-- What stands before the last `c`, and what stands behind it. -/
def cutLast (c : α) (l : List α) : Option (List α) × List α :=
  ((cut c l.reverse).2.map List.reverse, (cut c l.reverse).1.reverse)

@[simp] theorem cut_nil (c : α) : cut c [] = ([], none) := rfl

theorem glue_cut (c : α) (l : List α) : (cut c l).1 ++ led c (cut c l).2 = l := by
  induction l with
  | nil => rfl
  | cons a rest ih =>
    rw [cut]
    split
    · rename_i h
      rw [h]
      rfl
    · rw [List.cons_append, ih]

theorem notMem_cut (c : α) (l : List α) : c ∉ (cut c l).1 := by
  induction l with
  | nil => simp
  | cons a rest ih =>
    rw [cut]
    split
    · simp
    · rename_i h
      exact List.not_mem_cons_of_ne_of_not_mem (Ne.symm h) ih

theorem cut_glue {c : α} {before : List α} (h : c ∉ before) (after : Option (List α)) :
    cut c (before ++ led c after) = (before, after) := by
  induction before with
  | nil => cases after <;> simp [cut]
  | cons a rest ih =>
    have tail := ih (fun m => h (List.mem_cons_of_mem _ m))
    have ha : a ≠ c := by
      rintro rfl
      exact h List.mem_cons_self
    rw [List.cons_append, cut, if_neg ha, tail]

theorem cut_of_notMem {c : α} {l : List α} (h : c ∉ l) : cut c l = (l, none) := by
  simpa using cut_glue h none

theorem cut_append_cons {c : α} {before : List α} (h : c ∉ before) (after : List α) :
    cut c (before ++ c :: after) = (before, some after) :=
  cut_glue h (some after)

theorem glue_cutLast (c : α) (l : List α) : closed c (cutLast c l).1 ++ (cutLast c l).2 = l := by
  have h := congrArg List.reverse (glue_cut c l.reverse)
  rwa [List.reverse_append, reverse_led, List.reverse_reverse] at h

theorem notMem_cutLast (c : α) (l : List α) : c ∉ (cutLast c l).2 := by
  intro h
  exact notMem_cut c l.reverse (List.mem_reverse.mp h)

theorem cutLast_glue {c : α} {after : List α} (h : c ∉ after) (before : Option (List α)) :
    cutLast c (closed c before ++ after) = (before, after) := by
  have reversed : (closed c before ++ after).reverse =
      after.reverse ++ led c (before.map List.reverse) := by
    cases before <;> simp
  have back : (before.map List.reverse).map List.reverse = before := by
    cases before <;> simp
  rw [cutLast, reversed, cut_glue (fun m => h (List.mem_reverse.mp m)), back, List.reverse_reverse]

end Separators
