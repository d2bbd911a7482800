import Mathlib.Data.List.Nodup
import Mathlib.Data.List.Perm.Basic
import Mathlib.Data.Fintype.EquivFin
import Mathlib.Data.Fintype.Pigeonhole
import Mathlib.Logic.Relation

/-!
# Graphs of references

Nodes that hold lists of references to one another, a reference counted as often as it
is held. What is reachable from some roots, how many references there are to a node,
and where a set of nodes in which every one is referenced must have a cycle. Nothing
here mentions a particular program.
-/

namespace ReferenceGraph

universe u

variable {ι : Type u} {succ succ' : ι → List ι} {roots ps qs : List ι} {p q c : ι}

/-- All the references that the nodes of a list hold. -/
def heldBy (succ : ι → List ι) (ps : List ι) : List ι := ps.flatMap succ

@[simp] theorem heldBy_nil : heldBy succ [] = [] := List.flatMap_nil

@[simp] theorem heldBy_cons : heldBy succ (p :: ps) = succ p ++ heldBy succ ps :=
  List.flatMap_cons

@[simp] theorem heldBy_append : heldBy succ (ps ++ qs) = heldBy succ ps ++ heldBy succ qs :=
  List.flatMap_append

theorem mem_heldBy : c ∈ heldBy succ ps ↔ ∃ p ∈ ps, c ∈ succ p := List.mem_flatMap

theorem heldBy_congr (same : ∀ p ∈ ps, succ p = succ' p) : heldBy succ ps = heldBy succ' ps :=
  List.flatMap_congr same

/-- Nodes that hold one reference each at most hold no more than they are. -/
theorem length_heldBy_le (one : ∀ p ∈ ps, (succ p).length ≤ 1) :
    (heldBy succ ps).length ≤ ps.length := by
  induction ps with
  | nil => exact Nat.le_refl 0
  | cons p ps ih =>
    have here := one p List.mem_cons_self
    have rest := ih fun q mem => one q (List.mem_cons_of_mem p mem)
    rw [heldBy_cons, List.length_append, List.length_cons]
    omega

theorem heldBy_perm (succ : ι → List ι) (h : ps.Perm qs) : (heldBy succ ps).Perm (heldBy succ qs) :=
  h.flatMap_right succ

section
variable [DecidableEq ι]

/-- A node taken out of the list takes its references with it. -/
theorem heldBy_erase (succ : ι → List ι) (mem : p ∈ ps) :
    (heldBy succ ps).Perm (succ p ++ heldBy succ (ps.erase p)) :=
  heldBy_perm succ (List.perm_cons_erase mem)

/-- One node of the list gets other references. -/
theorem heldBy_change (succ succ' : ι → List ι) (distinct : ps.Nodup) (mem : p ∈ ps)
    (others : ∀ q ∈ ps, q ≠ p → succ' q = succ q) :
    (heldBy succ' ps ++ succ p).Perm (heldBy succ ps ++ succ' p) := by
  have rest : heldBy succ' (ps.erase p) = heldBy succ (ps.erase p) := by
    apply heldBy_congr
    intro q hq
    have ⟨ne, hmem⟩ := (List.Nodup.mem_erase_iff distinct).mp hq
    exact others q hmem ne
  have new := heldBy_erase succ' mem
  have old := heldBy_erase succ mem
  rw [rest] at new
  apply List.perm_iff_count.mpr
  intro c
  have newCount := new.count_eq c
  have oldCount := old.count_eq c
  simp only [List.count_append] at newCount oldCount ⊢
  omega

end

inductive Reachable (succ : ι → List ι) (roots : List ι) : ι → Prop
  | root {a : ι} : a ∈ roots → Reachable succ roots a
  | child {a b : ι} : Reachable succ roots a → b ∈ succ a → Reachable succ roots b

/-- A set that has the roots and the references of its members has all that is reachable. -/
theorem Reachable.within {S : ι → Prop} (h : Reachable succ roots p)
    (start : ∀ r ∈ roots, S r) (closed : ∀ q, S q → ∀ c ∈ succ q, S c) : S p := by
  induction h with
  | root mem => exact start _ mem
  | child _ ref ih => exact closed _ ih _ ref

/-- Nodes each of which is a root or referred to by one of them. -/
def SupportedBy (succ : ι → List ι) (roots : List ι) (B : ι → Prop) : Prop :=
  ∀ p, B p → p ∈ roots ∨ ∃ q, B q ∧ p ∈ succ q

theorem reachable_supportedBy (succ : ι → List ι) (roots : List ι) :
    SupportedBy succ roots (Reachable succ roots) := by
  intro p reach
  cases reach with
  | root mem => exact .inl mem
  | child parent ref => exact .inr ⟨_, parent, ref⟩

def Edge (succ : ι → List ι) (p c : ι) : Prop := c ∈ succ p

def OnCycle (succ : ι → List ι) (p : ι) : Prop := Relation.TransGen (Edge succ) p p

theorem path_of_iterate {α : Type u} {r : α → α → Prop} {f : α → α} (back : ∀ a, r (f a) a) (a : α) :
    ∀ n, Relation.ReflTransGen r (f^[n] a) a
  | 0 => .refl
  | n + 1 => by
    rw [Function.iterate_succ_apply']
    exact .head (back _) (path_of_iterate back a n)

/-- Where every member of a finite set is referenced by a member, each one is reached
from a cycle. -/
theorem reached_from_cycle (S : List ι) (referenced : ∀ p ∈ S, ∃ q ∈ S, p ∈ succ q)
    (mem : p ∈ S) :
    ∃ q ∈ S, OnCycle succ q ∧ Relation.ReflTransGen (Edge succ) q p := by
  classical
  have back : ∀ a : {x // x ∈ S}, ∃ b : {x // x ∈ S}, a.1 ∈ succ b.1 := fun a => by
    obtain ⟨q, hq, ref⟩ := referenced a.1 a.2
    exact ⟨⟨q, hq⟩, ref⟩
  choose f hf using back
  let r : {x // x ∈ S} → {x // x ∈ S} → Prop := fun a b => Edge succ a.1 b.1
  have steps := path_of_iterate (r := r) hf
  have lift : ∀ {a b}, Relation.ReflTransGen r a b → Relation.ReflTransGen (Edge succ) a.1 b.1 :=
    fun h => h.lift Subtype.val (fun _ _ e => e)
  -- two of the predecessors taken one after the other are the same
  obtain ⟨m, n, ne, same⟩ := Finite.exists_ne_map_eq_of_infinite (fun n => f^[n] ⟨p, mem⟩)
  wlog lt : m < n generalizing m n
  · exact this n m ne.symm same.symm (by omega)
  obtain ⟨k, rfl⟩ := Nat.exists_eq_add_of_lt lt
  have split : f^[m + k + 1] ⟨p, mem⟩ = f (f^[k] (f^[m] ⟨p, mem⟩)) := by
    rw [show m + k + 1 = (k + 1) + m by omega, Function.iterate_add_apply,
      Function.iterate_succ_apply']
  simp only [split] at same
  refine ⟨(f^[m] ⟨p, mem⟩).1, (f^[m] ⟨p, mem⟩).2, ?_, lift (steps _ m)⟩
  have first : Edge succ (f (f^[k] (f^[m] ⟨p, mem⟩))).1 (f^[k] (f^[m] ⟨p, mem⟩)).1 := hf _
  have cycle := Relation.TransGen.head' first (lift (steps (f^[m] ⟨p, mem⟩) k))
  rw [← same] at cycle
  exact cycle

end ReferenceGraph
