import Mathlib.Data.List.Basic

/-!
# Cutting a list into pieces

A decoder's loop takes a piece off the front of its input until nothing is left.
A `Cutter` is the body of such a loop, with the bound that makes it end: a piece
has at least one element.
-/

namespace Pieces

universe u v

variable {α : Type u} {β : Type v}

/-- `next a rest` takes the first piece off `a :: rest`. -/
structure Cutter (α : Type u) (β : Type v) where
  next : α → List α → β × List α
  consumes : ∀ a rest, (next a rest).2.length ≤ rest.length

namespace Cutter

/-- At most `n` pieces. -/
def cutFrom (k : Cutter α β) : Nat → List α → List β
  | 0, _ => []
  | _ + 1, [] => []
  | n + 1, a :: rest => (k.next a rest).1 :: cutFrom k n (k.next a rest).2

/-- All pieces of a list: it has at most one for each element. -/
def cut (k : Cutter α β) (l : List α) : List β :=
  k.cutFrom l.length l

variable (k : Cutter α β)

@[simp] theorem cutFrom_nil (n : Nat) : k.cutFrom n [] = [] := by
  cases n <;> rfl

@[simp] theorem cut_nil : k.cut [] = [] := rfl

theorem cutFrom_of_length_le {n m : Nat} {l : List α} (hn : l.length ≤ n) (hm : l.length ≤ m) :
    k.cutFrom n l = k.cutFrom m l := by
  induction n generalizing m l with
  | zero =>
    obtain rfl : l = [] := List.length_eq_zero_iff.mp (Nat.le_zero.mp hn)
    simp
  | succ n ih =>
    cases l with
    | nil => simp
    | cons a rest =>
      cases m with
      | zero => simp at hm
      | succ m =>
        have shorter := k.consumes a rest
        simp only [List.length_cons] at hn hm
        simp only [cutFrom]
        rw [ih (m := m) (by omega) (by omega)]

theorem cut_cons (a : α) (rest : List α) :
    k.cut (a :: rest) = (k.next a rest).1 :: k.cut (k.next a rest).2 := by
  simp only [cut, List.length_cons, cutFrom]
  rw [k.cutFrom_of_length_le (k.consumes a rest) (Nat.le_refl _)]

/-- Induction along the loop. -/
theorem induction {P : List α → Prop} (nil : P [])
    (cons : ∀ a rest, P (k.next a rest).2 → P (a :: rest)) (l : List α) : P l := by
  generalize hn : l.length = n
  induction n using Nat.strongRecOn generalizing l with
  | ind n ih =>
    cases l with
    | nil => exact nil
    | cons a rest =>
      have shorter := k.consumes a rest
      simp only [List.length_cons] at hn
      exact cons a rest (ih _ (by omega) _ rfl)

/-- `k` takes back what `enc` has put in front of a list. -/
def Inverts (enc : β → List α) (b : β) : Prop :=
  ∃ a more, enc b = a :: more ∧ ∀ rest, k.next a (more ++ rest) = (b, rest)

/-- Pieces that the loop takes back one by one are the pieces it finds. -/
theorem cut_flatMap_append {enc : β → List α} {bs : List β} (h : ∀ b ∈ bs, k.Inverts enc b)
    (rest : List α) : k.cut (bs.flatMap enc ++ rest) = bs ++ k.cut rest := by
  induction bs with
  | nil => rfl
  | cons b bs ih =>
    obtain ⟨a, more, henc, hnext⟩ := h b List.mem_cons_self
    have tail := ih (fun b hb => h b (List.mem_cons_of_mem _ hb))
    simp only [List.flatMap_cons, henc, List.cons_append, List.append_assoc]
    rw [cut_cons, hnext, tail]

end Cutter

end Pieces
