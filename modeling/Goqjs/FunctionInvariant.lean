import Goqjs.Functions

/-!
# The invariant of the function registry

The invariant is stated for one runtime, over its own contexts, objects and ids; a
step of another runtime leaves all of these alone.
-/

namespace Functions

open Runs Qjs

variable {F : Type} {s t : State F} {log ev : List (Event F)} {p q : Pc F} {r r' : RuntimeId}

/-- The ids that were given out. -/
def idsOf (log : List (Event F)) : List Int :=
  log.filterMap fun
    | .registered _ _ id _ => some id
    | _ => none

/-- The id is in the hands of its runtime, and in no set of a context yet. -/
def Pc.Pending (p : Pc F) (id : Int) : Prop :=
  ∃ owner fn, p = .register owner id fn ∨ p = .track owner id fn

/-- The loop of `Close` has not come to the id. -/
def Pc.Remaining (p : Pc F) (c : ContextId) (id : Int) : Prop :=
  ∀ rest, p = .unregister c rest → id ∈ rest

/-- `Close` has set the set of the context to nil, not the context yet. -/
def Pc.Leaving (p : Pc F) (c : ContextId) : Prop := p = .leave c ∨ p = .free c

structure ContextOk (s : State F) (log : List (Event F)) (p : Pc F) (r : RuntimeId)
    (c : ContextId) (x : Context) : Prop where
  closed : x.ctx = none → x.fns = none
  leaving : x.fns = none → x.ctx ≠ none → p.Leaving c
  home : ∀ a, x.ctx = some a → s.home a = some r
  entry : ∀ a, x.ctx = some a → p ≠ .free c → s.ctxRegistry a = some c
  complete : ∀ fns id fn, x.fns = some fns → .registered r (some c) id fn ∈ log →
    id ∈ fns ∨ p.Pending id
  sound : ∀ fns id, x.fns = some fns → id ∈ fns → ¬ p.Pending id ∧
    ∃ fn, .registered r (some c) id fn ∈ log ∧ (p.Remaining c id → s.fnRegistry id = some fn) ∧
      (¬ p.Remaining c id → s.fnRegistry id = none)

def ObjectOk (s : State F) (log : List (Event F)) (p : Pc F) (r : RuntimeId) (obj : Object F) :
    Prop :=
  ∃ id x, obj.data = newInt64 id ∧ .registered r (some obj.owner) id obj.fn ∈ log ∧
    ¬ p.Pending id ∧ s.contexts[obj.owner]? = some x ∧ x.rt = r ∧
      (x.fns = none → s.fnRegistry id = none)

/-- No id of the context is registered. -/
def Gone (s : State F) (log : List (Event F)) (r : RuntimeId) (c : ContextId) : Prop :=
  ∀ id fn, .registered r (some c) id fn ∈ log → s.fnRegistry id = none

def PcOk (s : State F) (log : List (Event F)) (r : RuntimeId) : Pc F → Prop
  | .idle => True
  | .newContext a => s.home a = some r ∧
      ∀ (c : Nat) (x : Context), s.contexts[c]? = some x → x.rt = r → x.ctx ≠ some a
  | .register owner id fn => .registered r owner id fn ∈ log ∧
      ∀ c, owner = some c → ∃ x, s.contexts[c]? = some x ∧ x.rt = r
  | .track owner id fn => .registered r owner id fn ∈ log ∧ s.fnRegistry id = some fn ∧
      ∀ c, owner = some c → ∃ x, s.contexts[c]? = some x ∧ x.rt = r
  | .create owner id fn => .registered r owner id fn ∈ log ∧
      ∀ c, owner = some c → ∃ x fns, s.contexts[c]? = some x ∧ x.rt = r ∧ x.fns = some fns
  | .unregister c rest => ∃ x fns, s.contexts[c]? = some x ∧ x.rt = r ∧ x.ctx ≠ none ∧
      x.fns = some fns ∧ rest ⊆ fns
  | .leave c => ∃ x, s.contexts[c]? = some x ∧ x.rt = r ∧ x.ctx ≠ none ∧ x.fns = none ∧
      Gone s log r c
  | .free c => ∃ x, s.contexts[c]? = some x ∧ x.rt = r ∧ x.fns = none ∧ Gone s log r c ∧
      ∀ a, x.ctx = some a → s.home a = some r ∧ s.ctxRegistry a ≠ some c
  | .invoke o caller fn => s.home caller = some r ∧ ∃ obj x, s.objects[o]? = some obj ∧
      obj.rt = r ∧ s.contexts[obj.owner]? = some x ∧ x.rt = r ∧
        (s.fnCounter < 2 ^ 53 → x.ctx ≠ none ∧ fn = obj.fn)

structure RuntimeOk (s : State F) (log : List (Event F)) (p : Pc F) (r : RuntimeId) : Prop where
  context : ∀ (c : Nat) (x : Context), s.contexts[c]? = some x → x.rt = r → ContextOk s log p r c x
  object : ∀ (o : Nat) (obj : Object F), s.objects[o]? = some obj → obj.rt = r → ObjectOk s log p r obj
  pc : PcOk s log r p
  apart : ∀ (c c' : Nat) (x x' : Context) a, s.contexts[c]? = some x → s.contexts[c']? = some x' →
    x.rt = r → x'.rt = r → x.ctx = some a → x'.ctx = some a → c = c'

structure Inv (s : State F) (log : List (Event F)) : Prop where
  ids : idsOf log = (List.range s.fnCounter).map (fun n : Nat => (n : Int) + 1)
  functional : ∀ r r' owner owner' id fn fn', .registered r owner id fn ∈ log →
    .registered r' owner' id fn' ∈ log → r = r' ∧ owner = owner' ∧ fn = fn'
  owned : ∀ r c id fn, .registered r (some c) id fn ∈ log → c < s.contexts.length
  entry : ∀ a c, s.ctxRegistry a = some c → ∃ x, s.contexts[c]? = some x ∧ x.ctx = some a
  runtime : ∀ r, RuntimeOk s log (s.pc r) r

/-- A step of `r` leaves alone what the invariant of another runtime speaks of. -/
structure Outside (r : RuntimeId) (s t : State F) (log ev : List (Event F)) : Prop where
  counter : s.fnCounter ≤ t.fnCounter
  pc : ∀ r', r' ≠ r → t.pc r' = s.pc r'
  context : ∀ (c : Nat) (x : Context), x.rt ≠ r → (t.contexts[c]? = some x ↔ s.contexts[c]? = some x)
  object : ∀ (o : Nat) (obj : Object F), obj.rt ≠ r → (t.objects[o]? = some obj ↔ s.objects[o]? = some obj)
  registry : ∀ r' owner id fn, r' ≠ r → .registered r' owner id fn ∈ log →
    t.fnRegistry id = s.fnRegistry id
  entry : ∀ a r', r' ≠ r → s.home a = some r' → t.ctxRegistry a = s.ctxRegistry a
  home : ∀ a r', r' ≠ r → s.home a = some r' → t.home a = some r'
  event : ∀ r' owner id fn, r' ≠ r → .registered r' owner id fn ∉ ev

theorem Outside.registered_iff (out : Outside r s t log ev) (ne : r' ≠ r)
    {owner : Option ContextId} {id : Int} {fn : F} :
    Event.registered r' owner id fn ∈ log ++ ev ↔ Event.registered r' owner id fn ∈ log := by
  rw [List.mem_append, or_iff_left (out.event r' owner id fn ne)]

theorem ContextOk.outside {c : ContextId} {x : Context} (h : ContextOk s log p r' c x)
    (out : Outside r s t log ev) (ne : r' ≠ r) : ContextOk t (log ++ ev) p r' c x where
  closed := h.closed
  leaving := h.leaving
  home a hx := out.home a r' ne (h.home a hx)
  entry a hx hp := (out.entry a r' ne (h.home a hx)).trans (h.entry a hx hp)
  complete fns id fn hx mem := h.complete fns id fn hx ((out.registered_iff ne).mp mem)
  sound fns id hx hid := by
    obtain ⟨pending, fn, mem, yes, no⟩ := h.sound fns id hx hid
    rw [← out.registry r' (some c) id fn ne mem] at yes no
    exact ⟨pending, fn, List.mem_append_left ev mem, yes, no⟩

theorem ObjectOk.outside {obj : Object F} (h : ObjectOk s log p r' obj)
    (out : Outside r s t log ev) (ne : r' ≠ r) : ObjectOk t (log ++ ev) p r' obj := by
  obtain ⟨id, x, data, mem, pending, hx, rt, none⟩ := h
  refine ⟨id, x, data, List.mem_append_left ev mem, pending, ?_, rt, fun hn => ?_⟩
  · exact (out.context _ x (rt ▸ ne)).mpr hx
  · exact (out.registry r' _ id _ ne mem).trans (none hn)

theorem Gone.outside {c : ContextId} (h : Gone s log r' c) (out : Outside r s t log ev)
    (ne : r' ≠ r) : Gone t (log ++ ev) r' c := by
  intro id fn mem
  have old := (out.registered_iff ne).mp mem
  exact (out.registry r' _ id fn ne old).trans (h id fn old)

theorem PcOk.outside (h : PcOk s log r' p) (out : Outside r s t log ev) (ne : r' ≠ r) :
    PcOk t (log ++ ev) r' p := by
  have context {c : Nat} {x : Context} (rt : x.rt = r') :
      t.contexts[c]? = some x ↔ s.contexts[c]? = some x := out.context c x (rt ▸ ne)
  have owned {owner : Option ContextId}
      (h : ∀ c, owner = some c → ∃ x, s.contexts[c]? = some x ∧ x.rt = r') :
      ∀ c, owner = some c → ∃ x, t.contexts[c]? = some x ∧ x.rt = r' := by
    intro c hc
    obtain ⟨x, hx, rt⟩ := h c hc
    exact ⟨x, (context rt).mpr hx, rt⟩
  cases p with
  | idle => trivial
  | newContext a =>
    obtain ⟨home, fresh⟩ := h
    exact ⟨out.home a r' ne home, fun c x hx rt => fresh c x ((context rt).mp hx) rt⟩
  | register owner id fn => exact ⟨List.mem_append_left ev h.1, owned h.2⟩
  | track owner id fn =>
    obtain ⟨mem, stored, owner⟩ := h
    exact ⟨List.mem_append_left ev mem, (out.registry r' _ id fn ne mem).trans stored, owned owner⟩
  | create owner id fn =>
    obtain ⟨mem, owner⟩ := h
    refine ⟨List.mem_append_left ev mem, fun c hc => ?_⟩
    obtain ⟨x, fns, hx, rt, hf⟩ := owner c hc
    exact ⟨x, fns, (context rt).mpr hx, rt, hf⟩
  | unregister c rest =>
    obtain ⟨x, fns, hx, rt, rest⟩ := h
    exact ⟨x, fns, (context rt).mpr hx, rt, rest⟩
  | leave c =>
    obtain ⟨x, hx, rt, ctx, fns, gone⟩ := h
    exact ⟨x, (context rt).mpr hx, rt, ctx, fns, gone.outside out ne⟩
  | free c =>
    obtain ⟨x, hx, rt, fns, gone, entry⟩ := h
    refine ⟨x, (context rt).mpr hx, rt, fns, gone.outside out ne, fun a ha => ?_⟩
    obtain ⟨home, entry⟩ := entry a ha
    exact ⟨out.home a r' ne home, out.entry a r' ne home ▸ entry⟩
  | invoke o caller fn =>
    obtain ⟨home, obj, x, ho, rt, hx, rt', few⟩ := h
    exact ⟨out.home caller r' ne home, obj, x, (out.object o obj (rt ▸ ne)).mpr ho, rt,
      (context rt').mpr hx, rt', fun h => few (Nat.lt_of_le_of_lt out.counter h)⟩

theorem RuntimeOk.outside (h : RuntimeOk s log p r') (out : Outside r s t log ev) (ne : r' ≠ r) :
    RuntimeOk t (log ++ ev) p r' where
  context c x hx rt := (h.context c x ((out.context c x (rt ▸ ne)).mp hx) rt).outside out ne
  object o obj ho rt := (h.object o obj ((out.object o obj (rt ▸ ne)).mp ho) rt).outside out ne
  pc := h.pc.outside out ne
  apart c c' x x' a hx hx' rt rt' :=
    h.apart c c' x x' a ((out.context c x (rt ▸ ne)).mp hx) ((out.context c' x' (rt' ▸ ne)).mp hx')
      rt rt'

theorem Outside.trans {u : State F} {ev' : List (Event F)} (first : Outside r s t log ev)
    (second : Outside r t u log ev') : Outside r s u log (ev ++ ev') where
  counter := first.counter.trans second.counter
  pc r' ne := (second.pc r' ne).trans (first.pc r' ne)
  context c x ne := (second.context c x ne).trans (first.context c x ne)
  object o obj ne := (second.object o obj ne).trans (first.object o obj ne)
  registry r' owner id fn ne mem :=
    (second.registry r' owner id fn ne mem).trans (first.registry r' owner id fn ne mem)
  entry a r' ne home :=
    (second.entry a r' ne (first.home a r' ne home)).trans (first.entry a r' ne home)
  home a r' ne home := second.home a r' ne (first.home a r' ne home)
  event r' owner id fn ne mem := by
    rcases List.mem_append.mp mem with mem | mem
    · exact first.event r' owner id fn ne mem
    · exact second.event r' owner id fn ne mem

theorem outside_goto (p : Pc F) : Outside r s (s.goto r p) log [] where
  counter := le_rfl
  pc _ ne := Function.update_of_ne ne _ _
  context _ _ _ := Iff.rfl
  object _ _ _ := Iff.rfl
  registry _ _ _ _ _ _ := rfl
  entry _ _ _ _ := rfl
  home _ _ _ h := h
  event _ _ _ _ _ := List.not_mem_nil

/-- Only the runtime that an id was given to changes what is stored under it. -/
theorem outside_setFunction (inv : Inv s log) {owner : Option ContextId} {id : Int} {fn : F}
    (mem : .registered r owner id fn ∈ log) (v : Option F) :
    Outside r s (s.setFunction id v) log [] where
  counter := le_rfl
  pc _ _ := rfl
  context _ _ _ := Iff.rfl
  object _ _ _ := Iff.rfl
  registry r' owner' id' fn' ne mem' := by
    refine Function.update_of_ne (fun eq => ?_) _ _
    subst eq
    exact ne (inv.functional r' r owner' owner id' fn' fn mem' mem).1
  entry _ _ _ _ := rfl
  home _ _ _ h := h
  event _ _ _ _ _ := List.not_mem_nil

theorem outside_setEntry {a : Addr} (home : s.home a = some r) (v : Option ContextId) :
    Outside r s (s.setEntry a v) log [] where
  counter := le_rfl
  pc _ _ := rfl
  context _ _ _ := Iff.rfl
  object _ _ _ := Iff.rfl
  registry _ _ _ _ _ _ := rfl
  entry a' r' ne home' := by
    refine Function.update_of_ne (fun eq => ?_) _ _
    subst eq
    exact ne (Option.some.inj (home'.symm.trans home))
  home _ _ _ h := h
  event _ _ _ _ _ := List.not_mem_nil

theorem outside_setHome {a : Addr} (home : ∀ r', s.home a = some r' → r' = r)
    (v : Option RuntimeId) : Outside r s (s.setHome a v) log [] where
  counter := le_rfl
  pc _ _ := rfl
  context _ _ _ := Iff.rfl
  object _ _ _ := Iff.rfl
  registry _ _ _ _ _ _ := rfl
  entry _ _ _ _ := rfl
  home a' r' ne home' := by
    refine (Function.update_of_ne (fun eq => ?_) _ _).trans home'
    subst eq
    exact ne (home r' home')
  event _ _ _ _ _ := List.not_mem_nil

theorem getElem?_append_other {α : Type} {P : α → Prop} {xs : List α} {y : α} (hy : P y) (i : Nat)
    (x : α) (ne : ¬ P x) : (xs ++ [y])[i]? = some x ↔ xs[i]? = some x := by
  rw [List.getElem?_append]
  split_ifs with h
  · rfl
  · rw [List.getElem?_eq_none (Nat.le_of_not_lt h)]
    simp only [reduceCtorEq, iff_false]
    intro mem
    have eq := List.mem_singleton.mp (List.mem_of_getElem? mem)
    exact ne (eq ▸ hy)

theorem outside_addContext {x : Context} (rt : x.rt = r) :
    Outside r s (s.addContext x) log [] where
  counter := le_rfl
  pc _ _ := rfl
  context c y ne := getElem?_append_other (P := fun y => y.rt = r) rt c y ne
  object _ _ _ := Iff.rfl
  registry _ _ _ _ _ _ := rfl
  entry _ _ _ _ := rfl
  home _ _ _ h := h
  event _ _ _ _ _ := List.not_mem_nil

theorem outside_addObject {obj : Object F} (rt : obj.rt = r) :
    Outside r s (s.addObject obj) log [] where
  counter := le_rfl
  pc _ _ := rfl
  context _ _ _ := Iff.rfl
  object o y ne := getElem?_append_other (P := fun y => y.rt = r) rt o y ne
  registry _ _ _ _ _ _ := rfl
  entry _ _ _ _ := rfl
  home _ _ _ h := h
  event _ _ _ _ _ := List.not_mem_nil

theorem outside_setContext {c : Nat} {x y : Context} (hx : s.contexts[c]? = some x)
    (rtx : x.rt = r) (rty : y.rt = r) : Outside r s (s.setContext c y) log [] where
  counter := le_rfl
  pc _ _ := rfl
  context c' z ne := by
    simp only [State.setContext, List.getElem?_set]
    split_ifs with eq lt
    · subst eq
      rw [hx]
      exact ⟨fun h => absurd (Option.some.inj h ▸ rty) ne,
        fun h => absurd (Option.some.inj h ▸ rtx) ne⟩
    · subst eq
      simp [List.getElem?_eq_none (Nat.le_of_not_lt lt)]
    · rfl
  object _ _ _ := Iff.rfl
  registry _ _ _ _ _ _ := rfl
  entry _ _ _ _ := rfl
  home _ _ _ h := h
  event _ _ _ _ _ := List.not_mem_nil

theorem Outside.emit (out : Outside r s t log [])
    (h : ∀ r' owner id fn, r' ≠ r → .registered r' owner id fn ∉ ev) : Outside r s t log ev :=
  { out with event := h }

end Functions
