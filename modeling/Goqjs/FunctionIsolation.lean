import Goqjs.FunctionSteps
import Mathlib.Data.List.Nodup

/-!
# Isolation of the function registry

A call finds its function by the id that the function object carries, and its
`Context` by the `JSContext` that calls. The first is gone once the owner is closed,
the second once the caller is.
-/

namespace Functions

open Runs Qjs

variable {F : Type} {s t : State F} {log ev : List (Event F)} {r : RuntimeId}

def OpenAt (s : State F) (c : ContextId) (a : Addr) : Prop :=
  ∃ x, s.contexts[c]? = some x ∧ x.ctx = some a

def IsOpen (s : State F) (c : ContextId) : Prop := ∃ a, OpenAt s c a

/-- Code of the `JSContext` can call the function object now. -/
structure CanCall (s : State F) (r : RuntimeId) (o : Nat) (obj : Object F) (caller : Addr) :
    Prop where
  idle : s.pc r = .idle
  object : s.objects[o]? = some obj
  rt : obj.rt = r
  home : s.home caller = some r

/-- A call made now ends with the event: at once, or with the next statement of its runtime,
whatever other runtimes do in between. -/
def Ends (s : State F) (r : RuntimeId) (o : Nat) (caller : Addr) (e : Event F) : Prop :=
  ∃ t ev, step s (.call r o caller) = some (t, ev) ∧
    (t.pc r = .idle ∧ ev = [e] ∨
      ev = [] ∧ ∀ as u log, (∀ a ∈ as, a.runtime ≠ r) → exec step t as = some (u, log) →
        ∃ v, step u (.next r) = some (v, [e]))

/-- A function object whose owner is open runs its function, whoever calls it. -/
def RunsItsFunction (s : State F) : Prop :=
  ∀ r o obj caller, CanCall s r o obj caller → IsOpen s obj.owner →
    ∃ c, Ends s r o caller (.ran r o obj.fn c)

/-- What `Close` removes, in every interleaving. -/
structure ClosesExactly (s : State F) (log : List (Event F)) : Prop where
  function : ∀ a t ev id, step s a = some (t, ev) → s.fnRegistry id ≠ none →
    t.fnRegistry id = none → ∃ c rest fn, s.pc a.runtime = .unregister c rest ∧
      .registered a.runtime (some c) id fn ∈ log
  entry : ∀ a t ev ctx c, step s a = some (t, ev) → s.ctxRegistry ctx = some c →
    t.ctxRegistry ctx ≠ some c → s.pc a.runtime = .leave c
  all : ∀ r c, s.pc r = .free c → Gone s log r c ∧ ∀ a, s.ctxRegistry a ≠ some c
  ends : ∀ r c x a, s.pc r = .idle → s.contexts[c]? = some x → x.rt = r → x.ctx = some a →
    ∃ as t log, (∀ a ∈ as, a.runtime = r) ∧ exec step s (.close r c :: as) = some (t, log) ∧
      .closed c ∈ log

/-- Other runtimes leave a call in progress alone, and the entry of its caller. -/
theorem others_keep (inv : Inv s log) {a : Addr} (home : s.home a = some r)
    {as : List (Action F)} (others : ∀ a ∈ as, a.runtime ≠ r) {log' : List (Event F)}
    (run : exec step s as = some (t, log')) :
    t.pc r = s.pc r ∧ t.ctxRegistry a = s.ctxRegistry a := by
  have kept : ∀ (u : State F) pre (a' : Action F) v ev,
      (Inv u pre ∧ u.home a = some r ∧ u.pc r = s.pc r ∧ u.ctxRegistry a = s.ctxRegistry a) →
      a'.runtime ≠ r → step u a' = some (v, ev) →
      Inv v (pre ++ ev) ∧ v.home a = some r ∧ v.pc r = s.pc r ∧
        v.ctxRegistry a = s.ctxRegistry a := by
    rintro u pre a' v ev ⟨inv, home, pc, entry⟩ ne hs
    obtain ⟨inv', out⟩ := inv.step hs
    exact ⟨inv', out.home a r ne.symm home, (out.pc r ne.symm).trans pc,
      (out.entry a r ne.symm home).trans entry⟩
  have start : Inv s log ∧ s.home a = some r ∧ s.pc r = s.pc r ∧
      s.ctxRegistry a = s.ctxRegistry a := ⟨inv, home, rfl, rfl⟩
  have final := exec_invariant (fun _ (a' : Action F) => a'.runtime ≠ r) kept start
    (allSteps_of_mem others) run
  exact final.2.2

/-- The registry has the entry of a caller exactly while its context is open. -/
theorem entry_iff (inv : Inv s log) (idle : s.pc r = .idle) {a : Addr} (home : s.home a = some r)
    (c : ContextId) : s.ctxRegistry a = some c ↔ OpenAt s c a := by
  refine ⟨inv.entry a c, ?_⟩
  rintro ⟨x, hx, ha⟩
  have ok := (inv.runtime x.rt).context c x hx rfl
  have rt : x.rt = r := Option.some.inj ((ok.home a ha).symm.trans home)
  rw [rt, idle] at ok
  exact ok.entry a ha (by simp)

section Call

variable {o : Nat} {obj : Object F} {caller : Addr}

theorem call_eq (can : CanCall s r o obj caller) :
    call s r o caller = match s.fnRegistry (toInt64 obj.data) with
      | none => some (s, [.threw r o (ascii "goqjs: unknown function ID")])
      | some fn => some (s.goto r (.invoke o caller fn), []) := by
  have ok : (s.isIdle r && obj.rt == r && s.home caller == some r) = true := by
    simp [isIdle_iff, can.idle, can.rt, can.home]
  cases found : s.fnRegistry (toInt64 obj.data) with
  | none => simp [call, can.object, ok, found]
  | some fn => simp [call, can.object, ok, found]

/-- The second lookup, after any steps of the other runtimes. -/
theorem ends_of_found (inv : Inv s log) (can : CanCall s r o obj caller) {fn : F}
    (found : s.fnRegistry (toInt64 obj.data) = some fn) {e : Event F}
    (lookup : (match s.ctxRegistry caller with
      | none => Event.threw r o (ascii "goqjs: context not found")
      | some c => .ran r o fn c) = e) : Ends s r o caller e := by
  have begun : step s (.call r o caller) = some (s.goto r (.invoke o caller fn), []) := by
    rw [step, call_eq can, found]
  refine ⟨_, _, begun, .inr ⟨rfl, fun as u log' others run => ?_⟩⟩
  have inv' := (inv.step begun).1
  obtain ⟨pc, entry⟩ := others_keep inv' (a := caller) can.home others run
  have here : u.pc r = .invoke o caller fn := by simpa [State.goto] using pc
  have same : u.ctxRegistry caller = s.ctxRegistry caller := entry
  subst lookup
  simp only [step, next, here, same]
  cases s.ctxRegistry caller <;> exact ⟨_, rfl⟩

/-- A call between open contexts runs the function, with the `Context` of the caller. -/
theorem ends_ran (inv : Inv s log) (few : s.fnCounter < 2 ^ 53) (can : CanCall s r o obj caller)
    (owner : IsOpen s obj.owner) {c : ContextId} (isOpen : OpenAt s c caller) :
    Ends s r o caller (.ran r o obj.fn c) := by
  obtain ⟨x, hx, _, yes, _⟩ := registry_of_object inv few can.idle can.object can.rt
  obtain ⟨a, y, hy, ha⟩ := owner
  cases hx.symm.trans hy
  refine ends_of_found inv can (yes (by simp [ha])) ?_
  rw [(entry_iff inv can.idle can.home c).mpr isOpen]

/-- A call that meets a closed context throws. -/
theorem ends_threw (inv : Inv s log) (few : s.fnCounter < 2 ^ 53) (can : CanCall s r o obj caller)
    (closed : ¬ IsOpen s obj.owner ∨ ∀ c, ¬ OpenAt s c caller) :
    ∃ msg, Ends s r o caller (.threw r o msg) := by
  obtain ⟨x, hx, _, yes, no⟩ := registry_of_object inv few can.idle can.object can.rt
  by_cases hc : x.ctx = none
  · refine ⟨ascii "goqjs: unknown function ID", s, _, ?_, .inl ⟨can.idle, rfl⟩⟩
    rw [step, call_eq can, no hc]
  · have owner : IsOpen s obj.owner := by
      obtain ⟨a, ha⟩ := Option.ne_none_iff_exists'.mp hc
      exact ⟨a, x, hx, ha⟩
    have none : s.ctxRegistry caller = none := by
      by_contra some
      obtain ⟨c, hc⟩ := Option.ne_none_iff_exists'.mp some
      exact closed.resolve_left (not_not_intro owner) c
        ((entry_iff inv can.idle can.home c).mp hc)
    exact ⟨ascii "goqjs: context not found", ends_of_found inv can (yes hc) (by rw [none])⟩

/-- A call has one end. -/
theorem ends_unique {e e' : Event F} (h : Ends s r o caller e) (h' : Ends s r o caller e') :
    e = e' := by
  obtain ⟨t, ev, begun, done⟩ := h
  obtain ⟨t', ev', begun', done'⟩ := h'
  cases begun.symm.trans begun'
  rcases done with ⟨_, rfl⟩ | ⟨rfl, done⟩ <;> rcases done' with ⟨_, eq⟩ | ⟨eq, done'⟩
  · exact (List.cons.inj eq).1
  · cases eq
  · cases eq
  · obtain ⟨v, last⟩ := done [] t [] (by simp) rfl
    obtain ⟨v', last'⟩ := done' [] t [] (by simp) rfl
    cases last.symm.trans last'
    rfl

end Call

/-- What a step does to `fnRegistry`. -/
theorem registry_step {a : Action F} (h : step s a = some (t, ev)) :
    t.fnRegistry = s.fnRegistry ∨
      (∃ owner id fn, s.pc a.runtime = .register owner id fn ∧
        t.fnRegistry = (s.setFunction id (some fn)).fnRegistry) ∨
      ∃ c rest id, s.pc a.runtime = .unregister c rest ∧ id ∈ rest ∧
        t.fnRegistry = (s.setFunction id none).fnRegistry := by
  cases step_transition h with
  | store pc => exact .inr (.inl ⟨_, _, _, pc, rfl⟩)
  | unregisterFunction pc left => exact .inr (.inr ⟨_, _, _, pc, left, rfl⟩)
  | _ => exact .inl rfl

/-- What a step does to `ctxRegistry`. -/
theorem entry_step {a : Action F} (h : step s a = some (t, ev)) :
    t.ctxRegistry = s.ctxRegistry ∨
      (∃ ctx c, s.pc a.runtime = .newContext ctx ∧
        t.ctxRegistry = (s.setEntry ctx (some c)).ctxRegistry) ∨
      ∃ ctx c x, s.pc a.runtime = .leave c ∧ s.contexts[c]? = some x ∧ x.ctx = some ctx ∧
        t.ctxRegistry = (s.setEntry ctx none).ctxRegistry := by
  cases step_transition h with
  | contextMade pc => exact .inr (.inl ⟨_, _, pc, rfl⟩)
  | leave pc found opened => exact .inr (.inr ⟨_, _, _, pc, found, opened, rfl⟩)
  | _ => exact .inl rfl

theorem function_removed (inv : Inv s log) {a : Action F} {id : Int}
    (h : step s a = some (t, ev)) (before : s.fnRegistry id ≠ none) (after : t.fnRegistry id = none) :
    ∃ c rest fn, s.pc a.runtime = .unregister c rest ∧
      .registered a.runtime (some c) id fn ∈ log := by
  rcases registry_step h with same | ⟨owner, id', fn, _, eq⟩ | ⟨c, rest, id', pc, hid, eq⟩
  · exact absurd (same ▸ after) before
  · rw [eq] at after
    by_cases here : id = id'
    · rw [here, setFunction_self] at after
      cases after
    · exact absurd (setFunction_ne here _ ▸ after) before
  · rw [eq] at after
    by_cases here : id = id'
    · have own := inv.runtime a.runtime
      rw [pc] at own
      obtain ⟨x, fns, hx, rt, _, hf, sub⟩ := own.pc
      obtain ⟨_, fn, mem, _⟩ := (own.context c x hx rt).sound fns id' hf (sub hid)
      exact ⟨c, rest, fn, pc, here ▸ mem⟩
    · exact absurd (setFunction_ne here _ ▸ after) before

theorem entry_removed (inv : Inv s log) {a : Action F} {ctx : Addr} {c : ContextId}
    (h : step s a = some (t, ev)) (before : s.ctxRegistry ctx = some c)
    (after : t.ctxRegistry ctx ≠ some c) : s.pc a.runtime = .leave c := by
  have own := inv.runtime a.runtime
  rcases entry_step h with same | ⟨ctx', c', pc, eq⟩ | ⟨ctx', c', x, pc, hx, ha, eq⟩
  · exact absurd (same ▸ before) after
  · rw [eq] at after
    by_cases here : ctx = ctx'
    · subst here
      rw [pc] at own
      obtain ⟨home, fresh⟩ := own.pc
      obtain ⟨x, hx, ha⟩ := inv.entry ctx c before
      have home' := ((inv.runtime x.rt).context c x hx rfl).home ctx ha
      exact absurd ha (fresh c x hx (Option.some.inj (home'.symm.trans home)))
    · simp [State.setEntry, here, before] at after
  · rw [eq] at after
    by_cases here : ctx = ctx'
    · subst here
      rw [pc] at own
      obtain ⟨x', hx', rt, _⟩ := own.pc
      cases hx.symm.trans hx'
      have entry := (own.context c' x hx rt).entry ctx ha (by simp)
      cases before.symm.trans entry
      exact pc
    · simp [State.setEntry, here, before] at after

/-- The loop of `Close` comes to its end. -/
theorem loop_ends (n : Nat) (c : ContextId) (rest : List Int) (bound : rest.length ≤ n)
    (pc : s.pc r = .unregister c rest) :
    ∃ as t, (∀ a ∈ as, a.runtime = r) ∧ exec step s as = some (t, []) ∧
      t.pc r = .unregister c [] ∧ t.contexts = s.contexts := by
  induction n generalizing s rest with
  | zero =>
    have none := List.length_eq_zero_iff.mp (Nat.le_zero.mp bound)
    exact ⟨[], s, by simp, rfl, none ▸ pc, rfl⟩
  | succ n ih =>
    match rest with
    | [] => exact ⟨[], s, by simp, rfl, pc, rfl⟩
    | id :: rest =>
      let u := (s.setFunction id none).goto r (.unregister c ((id :: rest).filter (· != id)))
      have round : step s (.unregisterFunction r id) = some (u, []) := by
        simp [step, unregisterFunction, pc, u]
      have shorter : ((id :: rest).filter (· != id)).length ≤ n := by
        have filtered := List.length_filter_le (· != id) rest
        simp only [List.length_cons, Nat.add_le_add_iff_right] at bound
        simp only [bne_self_eq_false, Bool.false_eq_true, not_false_eq_true, List.filter_cons_of_neg]
        omega
      have pc' : u.pc r = .unregister c ((id :: rest).filter (· != id)) := by
        simp [u, State.goto]
      obtain ⟨as, t, own, run, pc'', contexts⟩ := ih _ shorter pc'
      refine ⟨.unregisterFunction r id :: as, t, ?_, ?_, pc'', contexts⟩
      · intro a ha
        rcases List.mem_cons.mp ha with rfl | ha
        · rfl
        · exact own a ha
      · exact exec_cons_iff.mpr ⟨u, [], [], round, run, rfl⟩

/-- Behind the loop three statements are left. -/
theorem tail_ends {c : Nat} (pc : s.pc r = .unregister c []) {x : Context} {a : Addr}
    (hx : s.contexts[c]? = some x) (ha : x.ctx = some a) :
    ∃ t, exec step s [.next r, .next r, .next r] = some (t, [.closed c]) := by
  let y : Context := { x with fns := none }
  let u := (s.setContext c y).goto r (.leave c)
  let v := (u.setEntry a none).goto r (.free c)
  have inU : u.contexts[c]? = some y := (getElem?_setContext hx y c).trans (if_pos rfl)
  have first : step s (.next r) = some (u, []) := by
    simp only [step, next, pc, hx]
    rfl
  have second : step u (.next r) = some (v, []) := by
    have pc' : u.pc r = .leave c := by simp [u, State.goto]
    have shape : y = ⟨some a, x.rt, none, x.locked⟩ := by rw [← ha]
    simp only [step, next, pc', inU, shape]
    rfl
  have third : step v (.next r) = some ((v.setContext c { y with ctx := none }).goto r .idle,
      [.closed c]) := by
    have pc' : v.pc r = .free c := by simp [v, State.goto]
    have inV : v.contexts[c]? = some y := inU
    simp only [step, next, pc', inV]
  exact ⟨_, exec_cons_iff.mpr ⟨u, [], _, first, exec_cons_iff.mpr ⟨v, [], _, second,
    exec_cons_iff.mpr ⟨_, _, [], third, rfl, rfl⟩, rfl⟩, rfl⟩⟩

theorem close_ends {c : Nat} {x : Context} {a : Addr} (idle : s.pc r = .idle)
    (hx : s.contexts[c]? = some x) (rt : x.rt = r) (ha : x.ctx = some a) :
    ∃ as t log, (∀ a ∈ as, a.runtime = r) ∧ exec step s (.close r c :: as) = some (t, log) ∧
      .closed c ∈ log := by
  let u := s.goto r (.unregister c (x.fns.getD []))
  have begun : step s (.close r c) = some (u, []) := by
    simp [step, close, hx, isIdle_iff.mpr idle, rt, ha, u]
  have pc : u.pc r = .unregister c (x.fns.getD []) := by simp [u, State.goto]
  obtain ⟨as, t, own, run, pc', contexts⟩ := loop_ends _ c _ le_rfl pc
  obtain ⟨v, done⟩ := tail_ends pc' (contexts ▸ hx) ha
  refine ⟨as ++ [.next r, .next r, .next r], v, _, ?_,
    exec_cons_iff.mpr ⟨u, [], _, begun, exec_append run done, rfl⟩, by simp⟩
  intro a ha
  rcases List.mem_append.mp ha with ha | ha
  · exact own a ha
  · simp only [List.mem_cons, List.not_mem_nil, or_false, or_self] at ha
    rw [ha]
    rfl

theorem Inv.closesExactly (inv : Inv s log) : ClosesExactly s log where
  function _ _ _ _ := function_removed inv
  entry _ _ _ _ _ := entry_removed inv
  all r c pc := by
    have own := inv.runtime r
    rw [pc] at own
    obtain ⟨x, hx, _, _, gone, entry⟩ := own.pc
    refine ⟨gone, fun a ha => ?_⟩
    obtain ⟨y, hy, hc⟩ := inv.entry a c ha
    cases hx.symm.trans hy
    exact (entry a hc).2 ha
  ends _ _ _ _ := close_ends

/-- In every interleaving: no id is given out twice; a call runs the function of its object
where owner and caller are open, and throws otherwise; `Close` removes what belongs to its
context. -/
theorem registry_isolation {as : List (Action F)} (run : exec step (init F) as = some (s, log))
    (few : (idsOf log).length < 2 ^ 53) :
    (idsOf log).Nodup ∧
      (∀ r o obj caller, CanCall s r o obj caller →
        (IsOpen s obj.owner → ∀ c, OpenAt s c caller → Ends s r o caller (.ran r o obj.fn c)) ∧
        (¬ IsOpen s obj.owner ∨ (∀ c, ¬ OpenAt s c caller) →
          ∃ msg, Ends s r o caller (.threw r o msg))) ∧
      ClosesExactly s log := by
  have inv := run_inv run
  have counter : s.fnCounter < 2 ^ 53 := by simpa [inv.ids] using few
  refine ⟨?_, fun r o obj caller can => ⟨fun owner c => ends_ran inv counter can owner,
    ends_threw inv counter can⟩, inv.closesExactly⟩
  rw [inv.ids]
  refine List.Nodup.map (fun a b eq => ?_) List.nodup_range
  omega

/-- A function in one of two contexts of a runtime. -/
def created : List (Action Nat) :=
  [.newContext 0 0, .next 0, .newContext 0 1, .next 0, .newFunction 0 0 7, .next 0, .next 0, .next 0]

/-- Called from the other context, it runs. -/
theorem registry_isolation_run : ∃ s log, exec step (init Nat) created = some (s, log) ∧
    Ends s 0 0 1 (.ran 0 0 7 1) := by
  refine ⟨_, _, rfl, ?_⟩
  have run : exec step (init Nat) created = some (_, _) := rfl
  exact ((registry_isolation run (by decide)).2.1 0 0 ⟨0, newInt64 1, 0, 7⟩ 1 ⟨rfl, rfl, rfl, rfl⟩).1
    ⟨0, ⟨some 0, 0, some [1], false⟩, rfl, rfl⟩ 1 ⟨⟨some 1, 0, some [], false⟩, rfl, rfl⟩

/-- A context that has been closed gets an exception for the functions of an open one. -/
theorem not_runsItsFunction (inv : Inv s log) (few : s.fnCounter < 2 ^ 53) (o : Nat)
    (obj : Object F) (caller : Addr) (can : CanCall s r o obj caller) (owner : IsOpen s obj.owner)
    (closed : ∀ c, ¬ OpenAt s c caller) : ¬ RunsItsFunction s := by
  intro all
  obtain ⟨c, ran⟩ := all r o obj caller can owner
  obtain ⟨msg, threw⟩ := ends_threw inv few can (.inr closed)
  cases ends_unique ran threw

/-- The other context is closed before it calls. -/
theorem runs_its_function_fails : ∃ as s log, exec step (init Nat) as = some (s, log) ∧
    ¬ RunsItsFunction s := by
  have run : exec step (init Nat) (created ++ [.close 0 1, .next 0, .next 0, .next 0]) =
    some (_, _) := rfl
  refine ⟨_, _, _, run, not_runsItsFunction (run_inv run) (by decide) 0 ⟨0, newInt64 1, 0, 7⟩ 1
    ⟨rfl, rfl, rfl, rfl⟩ ⟨0, ⟨some 0, 0, some [1], false⟩, rfl, rfl⟩ ?_⟩
  rintro c ⟨x, hx, ha⟩
  have contexts : x ∈ [⟨some 0, 0, some [1], false⟩, ⟨none, 0, none, false⟩] :=
    List.mem_of_getElem? hx
  simp only [List.mem_cons, List.not_mem_nil, or_false] at contexts
  rcases contexts with rfl | rfl <;> cases ha

end Functions
