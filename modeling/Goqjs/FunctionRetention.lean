import Goqjs.FunctionIsolation
import Goqjs.FunctionLifetimes

/-!
# What Go holds for a context

Every function object carries one of the ids that were given out, and no two carry the same. So an
id that is registered through an open context stands for one object, which may be freed already.
-/

namespace Lifetimes

open Runs Qjs Functions

variable {F : Type}

/-- An id that its runtime has and no function object carries yet. -/
def InHand (p : Pc F) (id : Int) : Prop :=
  p.Pending id ∨ ∃ owner fn, p = .create owner id fn

/-- The function objects carry the ids that were given out, each at most once. -/
structure MadeOk (s : State F) (made : List Int) (log : List (Event F)) : Prop where
  length : made.length = s.objects.length
  nodup : made.Nodup
  object : ∀ (o : Nat) (obj : Object F) id, s.objects[o]? = some obj → made[o]? = some id →
    Event.registered obj.rt (some obj.owner) id obj.fn ∈ log
  hand : ∀ r id, InHand (s.pc r) id → id ∉ made
  tracked : ∀ (c : Nat) (x : Context) fns id, s.contexts[c]? = some x → x.fns = some fns →
    id ∈ fns → id ∈ made ∨ ∃ fn, s.pc x.rt = .create (some c) id fn

variable {s t u : State F} {log ev : List (Event F)} {made : List Int} {r : RuntimeId} {q : Pc F}

theorem MadeOk.registered (ok : MadeOk s made log) {id : Int} (h : id ∈ made) :
    ∃ (o : Nat) (obj : Object F), s.objects[o]? = some obj ∧ made[o]? = some id ∧
      Event.registered obj.rt (some obj.owner) id obj.fn ∈ log := by
  obtain ⟨o, lt, rfl⟩ := List.mem_iff_getElem.mp h
  have found := List.getElem?_eq_getElem (show o < s.objects.length from ok.length ▸ lt)
  have carried := List.getElem?_eq_getElem lt
  exact ⟨o, _, found, carried, ok.object o _ _ found carried⟩

theorem MadeOk.emit (ok : MadeOk s made log) : MadeOk s made (log ++ ev) :=
  { ok with object := fun o obj id ho hid => List.mem_append_left ev (ok.object o obj id ho hid) }

theorem goto_self (u : State F) (r : RuntimeId) (q : Pc F) : (u.goto r q).pc r = q :=
  Function.update_self ..

theorem goto_ne {r' : RuntimeId} (ne : r' ≠ r) : (u.goto r q).pc r' = u.pc r' :=
  Function.update_of_ne ne ..

/-- A statement that creates no object, behind one that creates none either. -/
theorem MadeOk.goto (ok : MadeOk s made log) (objects : u.objects = s.objects) (pc : u.pc = s.pc)
    (hand : ∀ id, InHand q id → id ∉ made) (other : ∀ c id fn, s.pc r ≠ .create (some c) id fn)
    (contexts : ∀ (c : Nat) (x : Context) fns id, u.contexts[c]? = some x → x.fns = some fns →
      id ∈ fns → (∃ y fns', s.contexts[c]? = some y ∧ y.rt = x.rt ∧ y.fns = some fns' ∧ id ∈ fns') ∨
        x.rt = r ∧ ∃ fn, q = .create (some c) id fn) :
    MadeOk (u.goto r q) made (log ++ ev) where
  length := objects ▸ ok.length
  nodup := ok.nodup
  object o obj id ho hid := List.mem_append_left ev (ok.object o obj id (objects ▸ ho) hid)
  hand r' id h := by
    by_cases here : r' = r
    · subst here
      rw [goto_self] at h
      exact hand id h
    · rw [goto_ne here, pc] at h
      exact ok.hand r' id h
  tracked c x fns id hx hf hid := by
    rcases contexts c x fns id hx hf hid with ⟨y, fns', hy, rt, hf', hid'⟩ | ⟨rt, fn, created⟩
    · rcases ok.tracked c y fns' id hy hf' hid' with done | ⟨fn, creating⟩
      · exact .inl done
      · rw [rt] at creating
        have ne : x.rt ≠ r := by
          intro eq
          rw [eq] at creating
          exact other c id fn creating
        refine .inr ⟨fn, ?_⟩
        rw [goto_ne ne, pc]
        exact creating
    · refine .inr ⟨fn, ?_⟩
      rw [rt, goto_self, created]

theorem inHand_iff {id : Int} : InHand q id ↔ ∃ owner fn,
    q = .register owner id fn ∨ q = .track owner id fn ∨ q = .create owner id fn := by
  constructor
  · rintro (⟨owner, fn, h | h⟩ | ⟨owner, fn, h⟩)
    · exact ⟨owner, fn, .inl h⟩
    · exact ⟨owner, fn, .inr (.inl h)⟩
    · exact ⟨owner, fn, .inr (.inr h)⟩
  · rintro ⟨owner, fn, h | h | h⟩
    · exact .inl ⟨owner, fn, .inl h⟩
    · exact .inl ⟨owner, fn, .inr h⟩
    · exact .inr ⟨owner, fn, h⟩

section Hand

variable {owner : Option ContextId} {id id' : Int} {fn : F}

theorem inHand_register : InHand (.register owner id fn) id' ↔ id' = id := by
  simp [inHand_iff, eq_comm]

theorem inHand_track : InHand (.track owner id fn) id' ↔ id' = id := by
  simp [inHand_iff, eq_comm]

theorem inHand_create : InHand (.create owner id fn) id' ↔ id' = id := by
  simp [inHand_iff, eq_comm]

end Hand

/-- The contexts are left as they were, or one of them gets no new id. -/
theorem MadeOk.goto_same (ok : MadeOk s made log) (objects : u.objects = s.objects)
    (pc : u.pc = s.pc) (hand : ∀ id, InHand q id → id ∉ made)
    (other : ∀ c id fn, s.pc r ≠ .create (some c) id fn) (contexts : u.contexts = s.contexts) :
    MadeOk (u.goto r q) made (log ++ ev) := by
  refine ok.goto objects pc hand other fun c x fns id hx hf hid => ?_
  exact .inl ⟨x, fns, contexts ▸ hx, rfl, hf, hid⟩

theorem MadeOk.goto_setContext (ok : MadeOk s made log) {c : Nat} {x y : Context}
    (hx : s.contexts[c]? = some x) (rt : y.rt = x.rt)
    (fns : ∀ fns', y.fns = some fns' → ∀ id ∈ fns', (∃ fns, x.fns = some fns ∧ id ∈ fns) ∨
      y.rt = r ∧ ∃ fn, q = .create (some c) id fn)
    (hand : ∀ id, InHand q id → id ∉ made)
    (other : ∀ c id fn, s.pc r ≠ .create (some c) id fn) :
    MadeOk ((s.setContext c y).goto r q) made (log ++ ev) := by
  refine ok.goto rfl rfl hand other fun c' z fns' id hz hf hid => ?_
  rw [getElem?_setContext hx] at hz
  split_ifs at hz with here
  · subst here
    cases hz
    rcases fns fns' hf id hid with ⟨old, hold, mem⟩ | created
    · exact .inl ⟨x, old, hx, rt.symm, hold, mem⟩
    · exact .inr created
  · exact .inl ⟨z, fns', hz, rfl, hf, hid⟩

theorem registered_of_inHand (inv : Inv s log) {id : Int} (h : InHand (s.pc r) id) :
    ∃ owner fn, Event.registered r owner id fn ∈ log := by
  have own := (inv.runtime r).pc
  obtain ⟨owner, fn, pc⟩ := inHand_iff.mp h
  rcases pc with pc | pc | pc
  all_goals
    rw [pc] at own
    exact ⟨owner, fn, own.1⟩

/-- Two runtimes have no id in common. -/
theorem inHand_unique (inv : Inv s log) {r' : RuntimeId} {id : Int} (h : InHand (s.pc r) id)
    (h' : InHand (s.pc r') id) : r = r' := by
  obtain ⟨owner, fn, mem⟩ := registered_of_inHand inv h
  obtain ⟨owner', fn', mem'⟩ := registered_of_inHand inv h'
  exact (inv.functional r r' owner owner' id fn fn' mem mem').1

/-- The new object takes the id out of the hands of its runtime. -/
theorem MadeOk.created (ok : MadeOk s made log) (inv : Inv s log) {c : Nat} {id : Int} {fn : F}
    (pc : s.pc r = .create (some c) id fn) :
    MadeOk ((s.addObject ⟨r, newInt64 id, c, fn⟩).goto r .idle) (made ++ [id]) (log ++ ev) := by
  have own := (inv.runtime r).pc
  rw [pc] at own
  have inHand : InHand (s.pc r) id := .inr ⟨_, _, pc⟩
  have fresh : id ∉ made := ok.hand r id inHand
  constructor
  · change (made ++ [id]).length = (s.objects ++ [_]).length
    rw [List.length_append, List.length_append, ok.length]
    rfl
  · apply ok.nodup.append (List.nodup_singleton id)
    exact List.disjoint_singleton.mpr fresh
  · intro o obj id' ho hid
    change (s.objects ++ [_])[o]? = some obj at ho
    apply List.mem_append_left ev
    by_cases old : o < s.objects.length
    · rw [List.getElem?_append_left old] at ho
      rw [List.getElem?_append_left (ok.length.symm ▸ old)] at hid
      exact ok.object o obj id' ho hid
    · rw [List.getElem?_append_right (Nat.le_of_not_lt old)] at ho
      rw [List.getElem?_append_right (ok.length.symm ▸ Nat.le_of_not_lt old)] at hid
      obtain rfl := List.mem_singleton.mp (List.mem_of_getElem? ho)
      obtain rfl := List.mem_singleton.mp (List.mem_of_getElem? hid)
      exact own.1
  · intro r' id' h
    by_cases here : r' = r
    · subst here
      rw [goto_self] at h
      obtain ⟨owner, fn', h⟩ := inHand_iff.mp h
      rcases h with h | h | h <;> cases h
    · rw [goto_ne here] at h
      intro mem
      rcases List.mem_append.mp mem with mem | mem
      · exact ok.hand r' id' h mem
      · obtain rfl := List.mem_singleton.mp mem
        exact here (inHand_unique inv h inHand)
  · intro c' x fns id' hx hf hid
    rcases ok.tracked c' x fns id' hx hf hid with done | ⟨fn', creating⟩
    · exact .inl (List.mem_append_left _ done)
    · by_cases here : x.rt = r
      · rw [here, pc] at creating
        cases creating
        exact .inl (List.mem_append_right _ List.mem_cons_self)
      · refine .inr ⟨fn', ?_⟩
        rw [goto_ne here]
        exact creating

/-- An id that has just been given out is carried by no object. -/
theorem fresh_id (ok : MadeOk s made log) (inv : Inv s log) : (s.fnCounter : Int) + 1 ∉ made := by
  intro mem
  obtain ⟨o, obj, _, _, registered⟩ := ok.registered mem
  have range := (inv.id_range registered).2
  omega

theorem madeOk_step (ok : MadeOk s made log) (inv : Inv s log) {a : Action F}
    (h : Functions.step s a = some (t, ev)) :
    MadeOk t (made ++ madeBy s a) (log ++ ev) := by
  have step := step_transition h
  clear h
  cases step with
  | newContext idle unused =>
    simp only [madeBy, List.append_nil made]
    exact ok.goto_same rfl rfl (by simp [inHand_iff]) (by simp [idle]) rfl
  | register call idle owned =>
    have none : made ++ madeBy s a = made := by
      rcases call with rfl | ⟨c, rfl, rfl⟩ <;> exact List.append_nil made
    rw [none]
    refine ok.goto_same rfl rfl (fun id h => ?_) (by simp [idle]) rfl
    obtain rfl := inHand_register.mp h
    exact fresh_id ok inv
  | closeAgain found closed =>
    simp only [madeBy, List.append_nil made]
    exact ok.emit
  | close idle found rt opened =>
    simp only [madeBy, List.append_nil made]
    exact ok.goto_same rfl rfl (by simp [inHand_iff]) (by simp [idle]) rfl
  | unregisterFunction pc left =>
    simp only [madeBy, List.append_nil made]
    exact ok.goto_same rfl rfl (by simp [inHand_iff]) (by simp [pc]) rfl
  | callUnknown found unknown =>
    simp only [madeBy, List.append_nil made]
    exact ok.emit
  | call idle found rt home known =>
    simp only [madeBy, List.append_nil made]
    exact ok.goto_same rfl rfl (by simp [inHand_iff]) (by simp [idle]) rfl
  | collect idle home =>
    simp only [madeBy, List.append_nil made]
    exact ⟨ok.length, ok.nodup, ok.emit.object, ok.hand, ok.tracked⟩
  | contextMade pc =>
    simp only [madeBy, pc, List.append_nil made]
    refine ok.goto rfl rfl (by simp [inHand_iff]) (by simp [pc]) fun c x fns id hx hf hid => ?_
    change (s.contexts ++ [_])[c]? = some x at hx
    by_cases old : c < s.contexts.length
    · rw [List.getElem?_append_left old] at hx
      exact .inl ⟨x, fns, hx, rfl, hf, hid⟩
    · rw [List.getElem?_append_right (Nat.le_of_not_lt old)] at hx
      obtain rfl := List.mem_singleton.mp (List.mem_of_getElem? hx)
      cases hf
      cases hid
  | store pc =>
    simp only [madeBy, pc, List.append_nil made]
    refine ok.goto_same rfl rfl (fun id' h => ?_) (by simp [pc]) rfl
    obtain rfl := inHand_track.mp h
    exact ok.hand _ _ (.inl ⟨_, _, .inl pc⟩)
  | trackNil pc =>
    simp only [madeBy, pc, List.append_nil made]
    refine ok.goto_same rfl rfl (fun id' h => ?_) (by simp [pc]) rfl
    obtain rfl := inHand_create.mp h
    exact ok.hand _ _ (.inl ⟨_, _, .inr pc⟩)
  | trackClosed pc found none =>
    simp only [madeBy, pc, List.append_nil made]
    refine ok.goto_setContext found rfl (fun fns' hf => ?_) (by simp [inHand_iff]) (by simp [pc])
    cases none.symm.trans hf
  | track pc found some =>
    rename_i r c id fn x fns
    simp only [madeBy, pc, List.append_nil made]
    have own := (inv.runtime r).pc
    rw [pc] at own
    obtain ⟨y, hy, rt⟩ := own.2.2 c rfl
    cases found.symm.trans hy
    refine ok.goto_setContext found rfl (fun fns' hf id' hid => ?_) (fun id' h => ?_) (by simp [pc])
    · cases hf
      rcases List.mem_cons.mp hid with rfl | old
      · exact .inr ⟨rt, fn, rfl⟩
      · exact .inl ⟨fns, some, old⟩
    · obtain rfl := inHand_create.mp h
      exact ok.hand r _ (.inl ⟨_, _, .inr pc⟩)
  | createNil pc =>
    simp only [madeBy, pc, List.append_nil made]
    exact ok.goto_same rfl rfl (by simp [inHand_iff]) (by simp [pc]) rfl
  | create pc =>
    simp only [madeBy, pc]
    exact ok.created inv pc
  | forget pc found =>
    simp only [madeBy, pc, List.append_nil made]
    exact ok.goto_setContext found rfl nofun (by simp [inHand_iff]) (by simp [pc])
  | leave pc found opened =>
    simp only [madeBy, pc, List.append_nil made]
    exact ok.goto_same rfl rfl (by simp [inHand_iff]) (by simp [pc]) rfl
  | free pc found =>
    simp only [madeBy, pc, List.append_nil made]
    exact ok.goto_setContext found rfl (fun fns hf id hid => .inl ⟨fns, hf, hid⟩)
      (by simp [inHand_iff]) (by simp [pc])
  | noContext pc unknown =>
    simp only [madeBy, pc, List.append_nil made]
    exact ok.goto_same rfl rfl (by simp [inHand_iff]) (by simp [pc]) rfl
  | ran pc known =>
    simp only [madeBy, pc, List.append_nil made]
    exact ok.goto_same rfl rfl (by simp [inHand_iff]) (by simp [pc]) rfl

/-- A context keeps its place and its runtime. -/
theorem rt_step {a : Action F} (h : Functions.step s a = some (t, ev)) {c : Nat} {x : Context}
    (hx : s.contexts[c]? = some x) : ∃ y, t.contexts[c]? = some y ∧ y.rt = x.rt := by
  have set {d : Nat} {y z : Context} (hy : s.contexts[d]? = some y) (rt : z.rt = y.rt) :
      ∃ y, (s.setContext d z).contexts[c]? = some y ∧ y.rt = x.rt := by
    by_cases here : c = d
    · subst here
      cases hx.symm.trans hy
      exact ⟨z, (getElem?_setContext hy z c).trans (if_pos rfl), rt⟩
    · exact ⟨x, ((getElem?_setContext hy z c).trans (if_neg here)).trans hx, rfl⟩
  cases step_transition h with
  | contextMade pc =>
    refine ⟨x, ?_, rfl⟩
    change (s.contexts ++ [_])[c]? = some x
    rw [List.getElem?_append_left (List.getElem?_eq_some_iff.mp hx).1]
    exact hx
  | trackClosed pc found none => exact set found rfl
  | track pc found some => exact set found rfl
  | forget pc found => exact set found rfl
  | free pc found => exact set found rfl
  | _ => exact ⟨x, hx, rfl⟩

theorem registered_step {a : Action F} (h : Functions.step s a = some (t, ev)) {c : Nat} {id : Int}
    {fn : F} (mem : .registered r (some c) id fn ∈ ev) :
    ∃ x, s.contexts[c]? = some x ∧ x.rt = r := by
  cases step_transition h with
  | register call idle owned =>
    cases List.mem_singleton.mp mem
    exact owns_iff.mp (owned c rfl)
  | _ => simp at mem

structure HeapOk (h : Heap F) (log : List (Event F)) : Prop where
  inv : Inv h.go log
  made : MadeOk h.go h.made log
  owner : ∀ r (c : Nat) id fn, .registered r (some c) id fn ∈ log →
    ∃ x, h.go.contexts[c]? = some x ∧ x.rt = r

theorem HeapOk.step {h h' : Heap F} (ok : HeapOk h log) {op : Op F}
    (hs : Lifetimes.step h op = some (h', ev)) : HeapOk h' (log ++ ev) := by
  obtain ⟨inv, made, owner⟩ := ok
  cases op with
  | go a =>
    simp only [Lifetimes.step] at hs
    split_ifs at hs with reached
    split at hs
    · cases hs
    · rename_i t ev done
      cases hs
      refine ⟨(inv.step done).1, madeOk_step made inv done, fun r c id fn mem => ?_⟩
      have before : ∃ x, h.go.contexts[c]? = some x ∧ x.rt = r := by
        rcases List.mem_append.mp mem with old | new
        · exact owner r c id fn old
        · exact registered_step done new
      obtain ⟨x, hx, rt⟩ := before
      obtain ⟨y, hy, same⟩ := rt_step done hx
      exact ⟨y, hy, same.trans rt⟩
  | drop r o | release r o | runGC r =>
    simp only [Lifetimes.step] at hs
    split_ifs at hs
    cases hs
    rw [List.append_nil]
    exact ⟨inv, made, owner⟩

theorem heapOk_init : HeapOk (init F) [] := by
  refine ⟨inv_init, ⟨rfl, List.nodup_nil, ?_, ?_, ?_⟩, ?_⟩
  · intro o obj id ho
    cases ho
  · intro r id h mem
    cases mem
  · intro c x fns id hx
    cases hx
  · intro r c id fn mem
    cases mem

theorem run_heapOk {ops : List (Op F)} {h : Heap F} (run : exec step (init F) ops = some (h, log)) :
    HeapOk h log :=
  exec_invariant_all (fun _ _ _ _ _ ok hs => ok.step hs) heapOk_init run

section Open

variable {h : Heap F} {c : Nat} {x : Context}

/-- Between two operations the set of an open context is what was registered through it. -/
theorem fns_of_open (inv : Inv h.go log) (idle : h.go.pc r = .idle)
    (hx : h.go.contexts[c]? = some x) (rt : x.rt = r) (opened : x.ctx ≠ none) :
    ∃ fns, x.fns = some fns ∧ ∀ id, id ∈ fns ↔ ∃ fn, .registered r (some c) id fn ∈ log := by
  have own := inv.runtime r
  rw [idle] at own
  have context := own.context c x hx rt
  cases hf : x.fns with
  | none => exact absurd (context.leaving hf opened) (quiet_idle.leaving c)
  | some fns =>
    refine ⟨fns, rfl, fun id => ⟨fun hid => ?_, ?_⟩⟩
    · obtain ⟨_, fn, mem, _⟩ := context.sound fns id hf hid
      exact ⟨fn, mem⟩
    · rintro ⟨fn, mem⟩
      exact (context.complete fns id fn hf mem).resolve_right (quiet_idle.pending id)

/-- And the registry has the closure of each. -/
theorem registry_of_open (inv : Inv h.go log) (idle : h.go.pc r = .idle)
    (hx : h.go.contexts[c]? = some x) (rt : x.rt = r) (opened : x.ctx ≠ none) {id : Int} {fn : F}
    (mem : .registered r (some c) id fn ∈ log) : h.go.fnRegistry id = some fn := by
  obtain ⟨fns, hf, all⟩ := fns_of_open inv idle hx rt opened
  have own := inv.runtime r
  rw [idle] at own
  obtain ⟨_, fn', mem', stored, _⟩ := (own.context c x hx rt).sound fns id hf ((all id).mpr ⟨fn, mem⟩)
  obtain ⟨_, _, rfl⟩ := inv.functional _ _ _ _ _ _ _ mem mem'
  exact stored (quiet_idle.remaining c id)

theorem holds_iff (ok : HeapOk h log) (idle : h.go.pc r = .idle)
    (hx : h.go.contexts[c]? = some x) (rt : x.rt = r) (opened : x.ctx ≠ none) {id : Int} :
    Holds h.go log c id ↔ ∃ fn, .registered r (some c) id fn ∈ log := by
  obtain ⟨fns, hf, all⟩ := fns_of_open ok.inv idle hx rt opened
  constructor
  · rintro (⟨y, fns', hy, hf', mem⟩ | ⟨r', fn, mem, _⟩)
    · cases hx.symm.trans hy
      cases hf.symm.trans hf'
      exact (all id).mp mem
    · obtain ⟨y, hy, rfl⟩ := ok.owner r' c id fn mem
      cases hx.symm.trans hy
      exact ⟨fn, rt ▸ mem⟩
  · intro h
    exact .inl ⟨x, fns, hx, hf, (all id).mpr h⟩

/-- Only a context that has lost no function object holds no id in vain. -/
theorem onlyAlive_iff (ok : HeapOk h log) (idle : h.go.pc r = .idle)
    (hx : h.go.contexts[c]? = some x) (rt : x.rt = r) (opened : x.ctx ≠ none) :
    OnlyAlive h log c ↔
      ∀ (o : Nat) obj, h.go.objects[o]? = some obj → obj.owner = c → h.mark o ≠ .freed := by
  obtain ⟨fns, hf, all⟩ := fns_of_open ok.inv idle hx rt opened
  constructor
  · rintro alive o obj ho rfl
    have lt : o < h.made.length := ok.made.length ▸ (List.getElem?_eq_some_iff.mp ho).1
    have carried : h.made[o]? = some h.made[o] := List.getElem?_eq_getElem lt
    have registered := ok.made.object o obj _ ho carried
    obtain ⟨y, hy, own⟩ := ok.owner _ _ _ _ registered
    cases hx.symm.trans hy
    have held := (holds_iff ok idle hx rt opened).mpr ⟨obj.fn, rt ▸ own ▸ registered⟩
    obtain ⟨o', found, mark⟩ := alive _ held
    have same : o = o' := (List.getElem?_inj lt ok.made.nodup).mp (carried.trans found.symm)
    exact same ▸ mark
  · intro kept id held
    obtain ⟨fn, registered⟩ := (holds_iff ok idle hx rt opened).mp held
    rcases ok.made.tracked c x fns id hx hf ((all id).mpr ⟨fn, registered⟩) with done | ⟨fn', pc⟩
    · obtain ⟨o, obj, ho, carried, registered'⟩ := ok.made.registered done
      obtain ⟨_, owner, _⟩ := ok.inv.functional _ _ _ _ _ _ _ registered registered'
      exact ⟨o, carried, kept o obj ho (Option.some.inj owner).symm⟩
    · rw [rt, idle] at pc
      cases pc

end Open

/-- What Go holds for an open context of the runtime, between two operations of it. -/
structure HeldUntilClose (h : Heap F) (log : List (Event F)) (r : RuntimeId) (c : ContextId)
    (x : Context) : Prop where
  set : ∃ fns, x.fns = some fns ∧ ∀ id, id ∈ fns ↔ ∃ fn, .registered r (some c) id fn ∈ log
  registry : ∀ id fn, .registered r (some c) id fn ∈ log → h.go.fnRegistry id = some fn
  alive : OnlyAlive h log c ↔
    ∀ (o : Nat) obj, h.go.objects[o]? = some obj → obj.owner = c → h.mark o ≠ .freed

/-- In every run, with any objects dropped, freed and collected: an open context holds every id that
was registered through it, and its closure, so some in vain once a function object of it is freed.
`Close` has removed them all when it comes to free the `JSContext`. -/
theorem closures_until_close {ops : List (Op F)} {h : Heap F}
    (run : exec step (init F) ops = some (h, log)) :
    (∀ r c x, h.go.pc r = .idle → h.go.contexts[c]? = some x → x.rt = r → x.ctx ≠ none →
      HeldUntilClose h log r c x) ∧
    ∀ r c, h.go.pc r = .free c → Gone h.go log r c := by
  have ok := run_heapOk run
  constructor
  · intro r c x idle hx rt opened
    constructor
    · exact fns_of_open ok.inv idle hx rt opened
    · intro id fn mem
      exact registry_of_open ok.inv idle hx rt opened mem
    · exact onlyAlive_iff ok idle hx rt opened
  · intro r c freeing
    exact (ok.inv.closesExactly.all r c freeing).1

/-- A response is built, and JavaScript drops its five functions. -/
def droppedResponse : List (Op ResponseFunction) :=
  [.go (.newContext 0 0), .go (.next 0)] ++ buildResponseObject 0 0 [] [0x41] ++
    [.drop 0 0, .drop 0 1, .drop 0 2, .drop 0 3, .drop 0 4]

/-- Once a collection has freed them, the closure of `json` is still there. -/
theorem closures_until_close_response : ∃ h log,
    exec step (init ResponseFunction) (droppedResponse ++ [.runGC 0]) = some (h, log) ∧
      h.go.fnRegistry 4 = some (.json [0x41]) ∧ h.mark 3 = .freed := by
  have run : exec step (init ResponseFunction) (droppedResponse ++ [.runGC 0]) = some (_,
    [.registered 0 (some 0) 1 (.get []), .registered 0 (some 0) 2 (.has []),
      .registered 0 (some 0) 3 (.text [0x41]), .registered 0 (some 0) 4 (.json [0x41]),
      .registered 0 (some 0) 5 (.arrayBuffer [0x41])]) := rfl
  have held := (closures_until_close run).1 0 0 ⟨some 0, 0, some [5, 4, 3, 2, 1], false⟩ rfl rfl rfl
    (by simp)
  exact ⟨_, _, run, held.registry 4 (.json [0x41]) (by simp), rfl⟩

theorem released_by_gc_fails : ¬ ReleasedByGC ResponseFunction := by
  intro released
  have run : exec step (init ResponseFunction) (droppedResponse ++ [.runGC 0]) = some (_, _) := rfl
  have ok := run_heapOk run
  have alive := released droppedResponse 0 _ _ run 0 ⟨some 0, 0, some [5, 4, 3, 2, 1], false⟩
    rfl rfl (by simp)
  have kept := (onlyAlive_iff ok (r := 0) rfl rfl rfl (by simp)).mp alive
  exact kept 3 ⟨0, newInt64 4, 0, .json [0x41]⟩ rfl rfl rfl

end Lifetimes
