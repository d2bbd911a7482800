import Mathlib.Data.List.Induction
import Mathlib.Data.List.Perm.Basic
import Mathlib.Logic.Function.Basic

/-!
# Writing entries one after another

A map is filled from a list of entries, each of which replaces what its key had. The
result does not depend on the order exactly if entries of one key agree. Nothing here
mentions a particular program.
-/

namespace Merges

universe u v w

variable {α : Type u} {κ : Type v} {β : Type w} [DecidableEq κ]

/-- Write the entries in order into a map. -/
def merge (key : α → κ) (val : α → β) (start : κ → β) (l : List α) : κ → β :=
  l.foldl (fun m a => Function.update m (key a) (val a)) start

variable {key : α → κ} {val : α → β} {start : κ → β} {l : List α}

@[simp] theorem merge_nil : merge key val start [] = start := rfl

theorem merge_concat (a : α) : merge key val start (l ++ [a]) =
    Function.update (merge key val start l) (key a) (val a) := by
  simp [merge, List.foldl_append]

theorem merge_of_notMem {k : κ} (h : ∀ a ∈ l, key a ≠ k) : merge key val start l k = start k := by
  induction l using List.reverseRecOn with
  | nil => rfl
  | append_singleton l a ih =>
    rw [merge_concat, Function.update_of_ne (h a (by simp)).symm]
    exact ih fun b hb => h b (List.mem_append_left _ hb)

/-- The last entry of a key wins. -/
theorem merge_last (a : α) : merge key val start (l ++ [a]) (key a) = val a := by
  rw [merge_concat, Function.update_self]

/-- What is found under a key is the value of one of its entries. -/
theorem merge_of_mem {a : α} (h : a ∈ l) :
    ∃ b ∈ l, key b = key a ∧ merge key val start l (key a) = val b := by
  induction l using List.reverseRecOn with
  | nil => cases h
  | append_singleton l c ih =>
    by_cases eq : key a = key c
    · exact ⟨c, by simp, eq.symm, by rw [eq, merge_last]⟩
    · have old : a ∈ l := by
        rcases List.mem_append.mp h with h | h
        · exact h
        · exact absurd (congrArg key (List.mem_singleton.mp h)) eq
      obtain ⟨b, hb, hkey, hval⟩ := ih old
      refine ⟨b, List.mem_append_left _ hb, hkey, ?_⟩
      rw [merge_concat, Function.update_of_ne eq, hval]

/-- Any entry can come last. -/
theorem exists_perm_last {a : α} (h : a ∈ l) : ∃ m, (m ++ [a]).Perm l := by
  obtain ⟨pre, post, rfl⟩ := List.append_of_mem h
  refine ⟨pre ++ post, ?_⟩
  rw [List.append_assoc]
  exact (List.perm_append_left_iff pre).mpr List.perm_append_comm

/-- Entries of one key have one value. -/
def Agree (key : α → κ) (val : α → β) (l : List α) : Prop :=
  ∀ a ∈ l, ∀ b ∈ l, key a = key b → val a = val b

theorem Agree.merge_eq (agree : Agree key val l) {a : α} (h : a ∈ l) :
    merge key val start l (key a) = val a := by
  obtain ⟨b, hb, hkey, hval⟩ : ∃ b ∈ l, key b = key a ∧ merge key val start l (key a) = val b :=
    merge_of_mem h
  rw [hval, agree b hb a h hkey]

omit [DecidableEq κ] in
theorem Agree.perm (agree : Agree key val l) {m : List α} (h : m.Perm l) : Agree key val m :=
  fun a ha b hb => agree a (h.mem_iff.mp ha) b (h.mem_iff.mp hb)

/-- The order does not matter exactly if the entries agree. -/
theorem merge_perm_iff : (∀ m m' : List α, m.Perm l → m'.Perm l →
    merge key val start m = merge key val start m') ↔ Agree key val l := by
  constructor
  · intro h a ha b hb eq
    obtain ⟨m, hm⟩ := exists_perm_last ha
    obtain ⟨m', hm'⟩ := exists_perm_last hb
    have same := congrFun (h _ _ hm hm') (key a)
    rw [merge_last, eq, merge_last] at same
    exact same
  · intro agree m m' hm hm'
    funext k
    by_cases hk : ∃ a ∈ l, key a = k
    · obtain ⟨a, ha, rfl⟩ := hk
      rw [(agree.perm hm).merge_eq (hm.mem_iff.mpr ha), (agree.perm hm').merge_eq (hm'.mem_iff.mpr ha)]
    · have none {n : List α} (hn : n.Perm l) : ∀ a ∈ n, key a ≠ k :=
        fun a ha eq => hk ⟨a, hn.mem_iff.mp ha, eq⟩
      rw [merge_of_notMem (none hm), merge_of_notMem (none hm')]

end Merges
