import Mathlib.Data.List.Nodup

/-!
# Chained buckets over an array

Entries stand in an array in the order in which they came. Each one that is in use belongs to a
bucket, and the entries of a bucket are chained from the newest to the oldest by positions that are
counted from one. Nothing here mentions a particular program.
-/

namespace ChainedIndex

universe u

variable {ε : Type u} (next : ε → Nat) (slot : ε → Option Nat)

/-- The chain that starts at this position goes through these entries. -/
def Chain (cells : List ε) : Nat → List Nat → Prop
  | h, [] => h = 0
  | h, i :: l => h = i + 1 ∧ ∃ e, cells[i]? = some e ∧ Chain cells (next e) l

/-- The bucket of the entry at a place, if it is in use. -/
def slotAt (cells : List ε) (i : Nat) : Option Nat := (cells[i]?).bind slot

/-- The entries of a bucket, the newest first. -/
def members (cells : List ε) (b : Nat) : List Nat :=
  ((List.range cells.length).filter fun i => slotAt slot cells i == some b).reverse

/-- Every bucket is chained from its head. -/
def Indexed (heads : List Nat) (cells : List ε) : Prop :=
  ∀ b < heads.length, Chain next cells (heads.getD b 0) (members slot cells b)

/-- The first entry of a chain that passes a test, and the entry in front of it. -/
def walk (test : ε → Bool) (cells : List ε) : Nat → Option Nat → Nat → Option (Nat × Option Nat)
  | 0, _, _ => none
  | fuel + 1, before, h =>
    if h = 0 then none
    else
      match cells[h - 1]? with
      | none => none
      | some e => if test e then some (h - 1, before) else walk test cells fuel (some (h - 1)) (next e)

variable {next slot} {cells cells' : List ε} {heads l l' : List Nat} {h b i j : Nat} {e : ε}

theorem Chain.lt (c : Chain next cells h l) : ∀ i ∈ l, i < cells.length := by
  induction l generalizing h with
  | nil => exact nofun
  | cons a l ih =>
    obtain ⟨-, e, at_a, rest⟩ := c
    intro i mem
    rcases List.mem_cons.mp mem with rfl | mem
    · exact (List.getElem?_eq_some_iff.mp at_a).1
    · exact ih rest i mem

theorem Chain.head_le (c : Chain next cells h l) : h ≤ cells.length := by
  cases l with
  | nil =>
    obtain rfl : h = 0 := c
    exact Nat.zero_le _
  | cons a l =>
    have := c.lt a List.mem_cons_self
    obtain ⟨rfl, -⟩ := c
    exact this

/-- A chain depends on its own entries only. -/
theorem Chain.agree (c : Chain next cells h l)
    (same : ∀ i ∈ l, (cells'[i]?).map next = (cells[i]?).map next) : Chain next cells' h l := by
  induction l generalizing h with
  | nil => exact c
  | cons a l ih =>
    obtain ⟨head, e, at_a, rest⟩ := c
    have here := same a List.mem_cons_self
    rw [at_a, Option.map_some, Option.map_eq_some_iff] at here
    obtain ⟨e', at_a', eq⟩ := here
    refine ⟨head, e', at_a', ?_⟩
    rw [eq]
    exact ih rest fun i mem => same i (List.mem_cons_of_mem a mem)

theorem mem_members : i ∈ members slot cells b ↔ slotAt slot cells i = some b := by
  simp only [members, List.mem_reverse, List.mem_filter, List.mem_range, beq_iff_eq]
  refine ⟨And.right, fun at_i => ⟨?_, at_i⟩⟩
  by_contra outside
  rw [slotAt, List.getElem?_eq_none (by omega)] at at_i
  cases at_i

theorem nodup_members (slot : ε → Option Nat) (cells : List ε) (b : Nat) :
    (members slot cells b).Nodup :=
  List.nodup_reverse.mpr (List.nodup_range.filter _)

theorem length_members_le (slot : ε → Option Nat) (cells : List ε) (b : Nat) :
    (members slot cells b).length ≤ cells.length := by
  rw [members, List.length_reverse]
  have := List.length_filter_le (fun i => slotAt slot cells i == some b) (List.range cells.length)
  rwa [List.length_range] at this

theorem members_congr (length : cells'.length = cells.length)
    (same : ∀ i, slotAt slot cells' i = slotAt slot cells i) (b : Nat) :
    members slot cells' b = members slot cells b := by
  simp only [members, length, same]

theorem slotAt_append (i : Nat) (e : ε) : slotAt slot (cells ++ [e]) i =
    if i = cells.length then slot e else slotAt slot cells i := by
  split_ifs with last
  · subst last
    simp [slotAt]
  · by_cases inside : i < cells.length
    · rw [slotAt, List.getElem?_append_left inside, slotAt]
    · rw [slotAt, slotAt, List.getElem?_eq_none (by simp; omega),
        List.getElem?_eq_none (by omega)]

theorem members_append (cells : List ε) (e : ε) (b : Nat) : members slot (cells ++ [e]) b =
    if slot e = some b then cells.length :: members slot cells b else members slot cells b := by
  have old : (List.range cells.length).filter (fun i => slotAt slot (cells ++ [e]) i == some b) =
      (List.range cells.length).filter (fun i => slotAt slot cells i == some b) := by
    apply List.filter_congr
    intro i mem
    rw [slotAt_append, if_neg (Nat.ne_of_lt (List.mem_range.mp mem))]
  have last : slotAt slot (cells ++ [e]) cells.length = slot e := by
    rw [slotAt_append, if_pos rfl]
  rw [members, List.length_append, List.length_singleton, List.range_succ, List.filter_append, old,
    List.filter_singleton, last]
  split_ifs with same
  · simp [members, same]
  · have other : (slot e == some b) = false := by simpa using same
    simp [members, other]

section Walk

variable {test : ε → Bool} {fuel : Nat} {before : Option Nat}

theorem walk_none (c : Chain next cells h l)
    (fails : ∀ i ∈ l, ∀ e, cells[i]? = some e → test e = false) :
    walk next test cells fuel before h = none := by
  induction l generalizing h fuel before with
  | nil =>
    obtain rfl : h = 0 := c
    cases fuel <;> rfl
  | cons a l ih =>
    obtain ⟨rfl, e, at_a, rest⟩ := c
    cases fuel with
    | zero => rfl
    | succ fuel =>
      rw [walk, if_neg (Nat.succ_ne_zero a), Nat.add_sub_cancel, at_a]
      simp only [fails a List.mem_cons_self e at_a, Bool.false_eq_true, if_false]
      exact ih rest fun i mem => fails i (List.mem_cons_of_mem a mem)

theorem walk_some (before : Option Nat) (c : Chain next cells h (l ++ i :: l'))
    (enough : l.length < fuel)
    (fails : ∀ j ∈ l, ∀ e, cells[j]? = some e → test e = false) (at_i : cells[i]? = some e)
    (passes : test e = true) :
    walk next test cells fuel before h = some (i, l.getLast?.or before) := by
  induction l generalizing h fuel before with
  | nil =>
    obtain ⟨rfl, e', at_i', -⟩ := c
    cases fuel with
    | zero => cases enough
    | succ fuel =>
      rw [walk, if_neg (Nat.succ_ne_zero i), Nat.add_sub_cancel, at_i]
      simp [passes]
  | cons a l ih =>
    obtain ⟨rfl, e', at_a, rest⟩ := c
    cases fuel with
    | zero => cases enough
    | succ fuel =>
      rw [walk, if_neg (Nat.succ_ne_zero a), Nat.add_sub_cancel, at_a]
      simp only [fails a List.mem_cons_self e' at_a, Bool.false_eq_true, if_false]
      rw [ih _ rest (Nat.lt_of_succ_lt_succ enough)
        (fun j mem => fails j (List.mem_cons_of_mem a mem)), List.getLast?_cons]
      cases l.getLast? <;> rfl

end Walk

/-- An entry that is not in use comes in. -/
theorem Indexed.append_free (I : Indexed next slot heads cells) (free : slot e = none) :
    Indexed next slot heads (cells ++ [e]) := by
  intro b lt
  rw [members_append, free, if_neg nofun]
  apply (I b lt).agree
  intro i mem
  rw [List.getElem?_append_left ((I b lt).lt i mem)]

/-- An entry comes in front of its bucket. -/
theorem Indexed.append (I : Indexed next slot heads cells) (used : slot e = some b)
    (link : next e = heads.getD b 0) :
    Indexed next slot (heads.set b (cells.length + 1)) (cells ++ [e]) := by
  intro b' lt
  rw [List.length_set] at lt
  have old : Chain next (cells ++ [e]) (heads.getD b' 0) (members slot cells b') := by
    apply (I b' lt).agree
    intro i mem
    rw [List.getElem?_append_left ((I b' lt).lt i mem)]
  by_cases same : b' = b
  · subst same
    have head : (heads.set b' (cells.length + 1)).getD b' 0 = cells.length + 1 := by
      simp [List.getD, lt]
    rw [members_append, if_pos used, head]
    refine ⟨rfl, e, by simp, ?_⟩
    rwa [link]
  · have head : (heads.set b (cells.length + 1)).getD b' 0 = heads.getD b' 0 := by
      simp [List.getD, List.getElem?_set_ne (Ne.symm same)]
    rw [members_append, if_neg (by simp [used, Ne.symm same]), head]
    exact old

theorem members_remove (length : cells'.length = cells.length)
    (dead : slotAt slot cells' i = none)
    (others : ∀ j, j ≠ i → slotAt slot cells' j = slotAt slot cells j) (b : Nat) :
    members slot cells' b = (members slot cells b).filter fun j => j != i := by
  rw [members, members, length, List.filter_reverse, List.filter_filter]
  congr 1
  apply List.filter_congr
  intro j _
  by_cases same : j = i
  · subst same
    simp [dead]
  · simp [others j same, same]

theorem filter_out (distinct : (l ++ i :: l').Nodup) :
    (l ++ i :: l').filter (fun j => j != i) = l ++ l' := by
  obtain ⟨-, tail, apart⟩ := List.nodup_append.mp distinct
  have fresh := (List.nodup_cons.mp tail).1
  have first : l.filter (fun j => j != i) = l := by
    apply List.filter_eq_self.mpr
    intro j mem
    simpa using apart j mem i List.mem_cons_self
  have second : l'.filter (fun j => j != i) = l' := by
    apply List.filter_eq_self.mpr
    intro j mem
    have : j ≠ i := fun same => fresh (same ▸ mem)
    simpa using this
  rw [List.filter_append, first, List.filter_cons_of_neg (by simp), second]

/-- A chain that leaves out the entry behind `j`, to which `j` pointed. -/
theorem Chain.skip (c : Chain next cells h (l ++ j :: i :: l'))
    (distinct : (l ++ j :: i :: l').Nodup) (at_i : cells[i]? = some e)
    (relinked : (cells'[j]?).map next = some (next e))
    (same : ∀ k, k ≠ j → k ≠ i → (cells'[k]?).map next = (cells[k]?).map next) :
    Chain next cells' h (l ++ j :: l') := by
  induction l generalizing h with
  | nil =>
    obtain ⟨head, e', at_j, -, e'', at_i', rest⟩ := c
    obtain rfl : e = e'' := Option.some.inj (at_i.symm.trans at_i')
    obtain ⟨e₁, at_j', link⟩ := Option.map_eq_some_iff.mp relinked
    refine ⟨head, e₁, at_j', ?_⟩
    rw [link]
    have tail := List.nodup_cons.mp distinct
    have tail' := List.nodup_cons.mp tail.2
    apply rest.agree
    intro k mem
    exact same k (fun eq => tail.1 (eq ▸ List.mem_cons_of_mem i mem)) (fun eq => tail'.1 (eq ▸ mem))
  | cons a l ih =>
    obtain ⟨head, e', at_a, rest⟩ := c
    obtain ⟨fresh, tail⟩ := List.nodup_cons.mp distinct
    have here := same a (fun eq => fresh (by simp [eq])) (fun eq => fresh (by simp [eq]))
    rw [at_a, Option.map_some] at here
    obtain ⟨e₁, at_a', link⟩ := Option.map_eq_some_iff.mp here
    refine ⟨head, e₁, at_a', ?_⟩
    rw [link]
    exact ih rest tail

section Remove

variable (I : Indexed next slot heads cells) (length : cells'.length = cells.length)
  (dead : slotAt slot cells' i = none)
  (others : ∀ k, k ≠ i → slotAt slot cells' k = slotAt slot cells k)

include I length dead others

/-- The entry at the head of its bucket goes. -/
theorem Indexed.remove_first (split : members slot cells b = i :: l') (at_i : cells[i]? = some e)
    (same : ∀ k, k ≠ i → (cells'[k]?).map next = (cells[k]?).map next) :
    Indexed next slot (heads.set b (next e)) cells' := by
  intro b' lt'
  rw [List.length_set] at lt'
  have left := members_remove length dead others b'
  by_cases bucket : b' = b
  · subst bucket
    have distinct := nodup_members slot cells b'
    rw [split] at distinct left
    have head : (heads.set b' (next e)).getD b' 0 = next e := by simp [List.getD, lt']
    have chain := I b' lt'
    rw [split] at chain
    obtain ⟨-, e', at_i', rest⟩ := chain
    obtain rfl : e = e' := Option.some.inj (at_i.symm.trans at_i')
    have rest_eq : (i :: l').filter (fun j => j != i) = l' := filter_out (l := []) distinct
    rw [left, rest_eq, head]
    apply rest.agree
    intro k mem
    exact same k fun eq => (List.nodup_cons.mp distinct).1 (eq ▸ mem)
  · have away : i ∉ members slot cells b' := by
      intro mem
      have mem' : i ∈ members slot cells b := by simp [split]
      rw [mem_members] at mem mem'
      exact bucket (Option.some.inj (mem.symm.trans mem'))
    have head : (heads.set b (next e)).getD b' 0 = heads.getD b' 0 := by
      simp [List.getD, List.getElem?_set_ne (Ne.symm bucket)]
    have whole : (members slot cells b').filter (fun j => j != i) = members slot cells b' := by
      apply List.filter_eq_self.mpr
      intro k mem
      have : k ≠ i := fun eq => away (eq ▸ mem)
      simpa using this
    rw [left, whole, head]
    apply (I b' lt').agree
    intro k mem
    exact same k fun eq => away (eq ▸ mem)

/-- An entry behind another one goes. -/
theorem Indexed.remove_later (split : members slot cells b = l ++ j :: i :: l')
    (at_i : cells[i]? = some e)
    (relinked : (cells'[j]?).map next = some (next e))
    (same : ∀ k, k ≠ j → k ≠ i → (cells'[k]?).map next = (cells[k]?).map next) :
    Indexed next slot heads cells' := by
  intro b' lt'
  have left := members_remove length dead others b'
  by_cases bucket : b' = b
  · subst bucket
    have distinct := nodup_members slot cells b'
    have chain := I b' lt'
    rw [split] at distinct left chain
    have parts : l ++ j :: i :: l' = (l ++ [j]) ++ i :: l' := by simp
    rw [parts] at left
    rw [left, filter_out (by rwa [← parts]), List.append_assoc, List.singleton_append]
    exact chain.skip distinct at_i relinked same
  · have away : ∀ k ∈ [j, i], k ∉ members slot cells b' := by
      intro k mem mem'
      have here : k ∈ members slot cells b := by
        rw [split]
        simp only [List.mem_cons, List.not_mem_nil, or_false] at mem
        rcases mem with rfl | rfl <;> simp
      rw [mem_members] at mem' here
      exact bucket (Option.some.inj (mem'.symm.trans here))
    have whole : (members slot cells b').filter (fun k => k != i) = members slot cells b' := by
      apply List.filter_eq_self.mpr
      intro k mem
      have : k ≠ i := fun eq => away i (by simp) (eq ▸ mem)
      simpa using this
    rw [left, whole]
    apply (I b' lt').agree
    intro k mem
    exact same k (fun eq => away j (by simp) (eq ▸ mem)) (fun eq => away i (by simp) (eq ▸ mem))

end Remove

end ChainedIndex
