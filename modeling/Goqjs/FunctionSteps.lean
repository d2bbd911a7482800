import Goqjs.FunctionInvariant

/-!
# Steps of the function registry

For each statement of an operation: what it leaves of the invariant of its own
runtime. What it leaves to the other runtimes is the frame of the module before.
-/

namespace Functions

open Runs Qjs

variable {F : Type} {s t : State F} {log ev : List (Event F)} {p q : Pc F} {r r' : RuntimeId}

/-- The runtime is in no registration and in no `Close`. -/
structure Pc.Quiet (p : Pc F) : Prop where
  pending : ∀ id, ¬ p.Pending id
  remaining : ∀ c id, p.Remaining c id
  leaving : ∀ c, ¬ p.Leaving c

theorem quiet_idle : (Pc.idle : Pc F).Quiet :=
  ⟨by simp [Pc.Pending], by simp [Pc.Remaining], by simp [Pc.Leaving]⟩

theorem quiet_newContext (a : Addr) : (Pc.newContext a : Pc F).Quiet :=
  ⟨by simp [Pc.Pending], by simp [Pc.Remaining], by simp [Pc.Leaving]⟩

theorem quiet_create (owner : Option ContextId) (id : Int) (fn : F) :
    (Pc.create owner id fn).Quiet :=
  ⟨by simp [Pc.Pending], by simp [Pc.Remaining], by simp [Pc.Leaving]⟩

theorem quiet_invoke (o : Nat) (caller : Addr) (fn : F) : (Pc.invoke o caller fn).Quiet :=
  ⟨by simp [Pc.Pending], by simp [Pc.Remaining], by simp [Pc.Leaving]⟩

theorem Pc.Quiet.ne_free (h : p.Quiet) (c : ContextId) : p ≠ .free c :=
  fun eq => h.leaving c (.inr eq)

theorem ContextOk.quiet {c : ContextId} {x : Context} (h : ContextOk s log p r c x)
    (hp : p.Quiet) (hq : q.Quiet) : ContextOk s log q r c x where
  closed := h.closed
  leaving hf hc := absurd (h.leaving hf hc) (hp.leaving c)
  home := h.home
  entry a ha _ := h.entry a ha (hp.ne_free c)
  complete fns id fn hf mem := .inl ((h.complete fns id fn hf mem).resolve_right (hp.pending id))
  sound fns id hf hid := by
    obtain ⟨_, fn, mem, yes, _⟩ := h.sound fns id hf hid
    exact ⟨hq.pending id, fn, mem, fun _ => yes (hp.remaining c id),
      fun no => absurd (hq.remaining c id) no⟩

theorem ObjectOk.quiet {obj : Object F} (h : ObjectOk s log p r obj) (hq : q.Quiet) :
    ObjectOk s log q r obj := by
  obtain ⟨id, x, data, mem, _, rest⟩ := h
  exact ⟨id, x, data, mem, hq.pending id, rest⟩

/-- From one quiet position to another. -/
theorem RuntimeOk.quiet (h : RuntimeOk s log p r) (hp : p.Quiet) (hq : q.Quiet)
    (pc : PcOk s log r q) : RuntimeOk s log q r where
  context c x hx rt := (h.context c x hx rt).quiet hp hq
  object o obj ho rt := (h.object o obj ho rt).quiet hq
  pc := pc
  apart := h.apart

theorem ContextOk.emit {c : ContextId} {x : Context} (h : ContextOk s log p r c x)
    (quiet : ∀ owner id fn, .registered r owner id fn ∉ ev) :
    ContextOk s (log ++ ev) p r c x where
  closed := h.closed
  leaving := h.leaving
  home := h.home
  entry := h.entry
  complete fns id fn hf mem :=
    h.complete fns id fn hf ((List.mem_append.mp mem).resolve_right (quiet _ id fn))
  sound fns id hf hid := by
    obtain ⟨pending, fn, mem, rest⟩ := h.sound fns id hf hid
    exact ⟨pending, fn, List.mem_append_left ev mem, rest⟩

theorem ObjectOk.emit {obj : Object F} (h : ObjectOk s log p r obj) :
    ObjectOk s (log ++ ev) p r obj := by
  obtain ⟨id, x, data, mem, rest⟩ := h
  exact ⟨id, x, data, List.mem_append_left ev mem, rest⟩

/-- Events that end an operation. -/
theorem RuntimeOk.emit (h : RuntimeOk s log .idle r)
    (quiet : ∀ owner id fn, .registered r owner id fn ∉ ev) :
    RuntimeOk s (log ++ ev) .idle r where
  context c x hx rt := (h.context c x hx rt).emit quiet
  object o obj ho rt := (h.object o obj ho rt).emit
  pc := trivial
  apart := h.apart

theorem RuntimeOk.goto (h : RuntimeOk s log p r) : RuntimeOk (s.goto r' q) log p r where
  context c x hx rt :=
    have ok := h.context c x hx rt
    ⟨ok.closed, ok.leaving, ok.home, ok.entry, ok.complete, ok.sound⟩
  object := h.object
  pc := by
    have pc := h.pc
    cases p <;> exact pc
  apart := h.apart

theorem RuntimeOk.setHome (h : RuntimeOk s log .idle r) {a : Addr}
    (unused : ∀ (c : Nat) (x : Context), s.contexts[c]? = some x → x.rt = r → x.ctx ≠ some a)
    (v : Option RuntimeId) : RuntimeOk (s.setHome a v) log .idle r where
  context c x hx rt :=
    have ok := h.context c x hx rt
    have home : ∀ a', x.ctx = some a' → (s.setHome a v).home a' = some r := by
      intro a' ha'
      refine (Function.update_of_ne ?_ _ _).trans (ok.home a' ha')
      rintro rfl
      exact unused c x hx rt ha'
    ⟨ok.closed, ok.leaving, home, ok.entry, ok.complete, ok.sound⟩
  object := h.object
  pc := trivial
  apart := h.apart

theorem mem_idsOf {owner : Option ContextId} {id : Int} {fn : F}
    (h : Event.registered r owner id fn ∈ log) : id ∈ idsOf log :=
  List.mem_filterMap.mpr ⟨_, h, rfl⟩

theorem Inv.id_range (inv : Inv s log) {owner : Option ContextId} {id : Int} {fn : F}
    (h : Event.registered r owner id fn ∈ log) : 0 < id ∧ id ≤ s.fnCounter := by
  have mem := mem_idsOf h
  rw [inv.ids] at mem
  obtain ⟨n, hn, rfl⟩ := List.mem_map.mp mem
  have lt := List.mem_range.mp hn
  omega

/-- The id that `fnCounter.Add(1)` gives is new. -/
theorem runtimeOk_register (inv : Inv s log) (idle : s.pc r = .idle) {owner : Option ContextId}
    (owned : ∀ c, owner = some c → ∃ x, s.contexts[c]? = some x ∧ x.rt = r) (fn : F) :
    RuntimeOk { s with fnCounter := s.fnCounter + 1 }
      (log ++ [.registered r owner (s.fnCounter + 1) fn])
      (.register owner (s.fnCounter + 1) fn) r := by
  have h := inv.runtime r
  rw [idle] at h
  have fresh {owner' : Option ContextId} {id : Int} {fn' : F}
      (mem : .registered r owner' id fn' ∈ log) :
      ¬ (Pc.register owner ((s.fnCounter : Int) + 1) fn).Pending id := by
    have le := (inv.id_range mem).2
    rintro ⟨_, _, eq | eq⟩ <;> cases eq
    omega
  refine ⟨fun c x hx rt => ?_, fun o obj ho rt => ?_, ⟨by simp, owned⟩, h.apart⟩
  · have ok := h.context c x hx rt
    refine ⟨ok.closed, ?_, ok.home, ?_, ?_, ?_⟩
    · intro hf hc
      exact absurd (ok.leaving hf hc) (quiet_idle.leaving c)
    · exact fun a ha _ => ok.entry a ha (quiet_idle.ne_free c)
    · intro fns id fn' hf mem
      rcases List.mem_append.mp mem with mem | mem
      · exact .inl ((ok.complete fns id fn' hf mem).resolve_right (quiet_idle.pending id))
      · cases List.mem_singleton.mp mem
        exact .inr ⟨_, _, .inl rfl⟩
    · intro fns id hf hid
      obtain ⟨_, fn', mem, yes, _⟩ := ok.sound fns id hf hid
      refine ⟨fresh mem, fn', List.mem_append_left _ mem, fun _ => yes (quiet_idle.remaining c id),
        fun no => absurd ?_ no⟩
      rintro rest eq
      cases eq
  · obtain ⟨id, x, data, mem, _, rest⟩ := h.object o obj ho rt
    exact ⟨id, x, data, List.mem_append_left _ mem, fresh mem, rest⟩

/-- The loop of `Close` starts with the whole set. -/
theorem runtimeOk_close (h : RuntimeOk s log .idle r) {c : Nat} {x : Context} {a : Addr}
    (hx : s.contexts[c]? = some x) (rt : x.rt = r) (ctx : x.ctx = some a) :
    RuntimeOk s log (.unregister c (x.fns.getD [])) r := by
  have openFns : x.fns ≠ none := fun none =>
    (quiet_idle.leaving c) ((h.context c x hx rt).leaving none (by simp [ctx]))
  obtain ⟨fns, hf⟩ := Option.ne_none_iff_exists'.mp openFns
  refine ⟨fun c' x' hx' rt' => ?_, fun o obj ho rt' => ?_,
    ⟨x, fns, hx, rt, by simp [ctx], hf, by simp [hf]⟩, h.apart⟩
  · have ok := h.context c' x' hx' rt'
    refine ⟨ok.closed, ?_, ok.home, ?_, ?_, ?_⟩
    · intro hf hc
      exact absurd (ok.leaving hf hc) (quiet_idle.leaving c')
    · exact fun a ha _ => ok.entry a ha (quiet_idle.ne_free c')
    · intro fns' id fn' hf' mem
      exact .inl ((ok.complete fns' id fn' hf' mem).resolve_right (quiet_idle.pending id))
    · intro fns' id hf' hid
      obtain ⟨_, fn', mem, yes, _⟩ := ok.sound fns' id hf' hid
      refine ⟨by simp [Pc.Pending], fn', mem, fun _ => yes (quiet_idle.remaining c' id),
        fun no => absurd ?_ no⟩
      rintro rest eq
      cases eq
      cases hx.symm.trans hx'
      rw [hf']
      exact hid
  · obtain ⟨id, y, data, mem, _, rest⟩ := h.object o obj ho rt'
    exact ⟨id, y, data, mem, by simp [Pc.Pending], rest⟩

theorem setFunction_self (id : Int) (v : Option F) : (s.setFunction id v).fnRegistry id = v := by
  simp [State.setFunction]

theorem setFunction_ne {id id' : Int} (ne : id' ≠ id) (v : Option F) :
    (s.setFunction id v).fnRegistry id' = s.fnRegistry id' := by
  simp [State.setFunction, ne]

theorem runtimeOk_stored {owner : Option ContextId} {id : Int} {fn : F}
    (h : RuntimeOk s log (.register owner id fn) r) :
    RuntimeOk (s.setFunction id (some fn)) log (.track owner id fn) r := by
  have pending {id' : Int} : (Pc.track owner id fn).Pending id' ↔
      (Pc.register owner id fn).Pending id' := by simp [Pc.Pending]
  have ne {id' : Int} (h : ¬ (Pc.register owner id fn).Pending id') : id' ≠ id :=
    fun eq => h ⟨owner, fn, .inl (eq ▸ rfl)⟩
  obtain ⟨mem, owned⟩ := h.pc
  refine ⟨fun c x hx rt => ?_, fun o obj ho rt => ?_, ⟨mem, setFunction_self id _, owned⟩, h.apart⟩
  · have ok := h.context c x hx rt
    refine ⟨ok.closed, ?_, ok.home, ?_, ?_, ?_⟩
    · intro hf hc
      rcases ok.leaving hf hc with eq | eq <;> cases eq
    · exact fun a ha _ => ok.entry a ha (by simp)
    · intro fns id' fn' hf mem'
      exact (ok.complete fns id' fn' hf mem').imp_right pending.mpr
    · intro fns id' hf hid
      obtain ⟨free, fn', mem', yes, _⟩ := ok.sound fns id' hf hid
      rw [pending, setFunction_ne (ne free)]
      exact ⟨free, fn', mem', fun _ => yes (by simp [Pc.Remaining]),
        fun no => absurd (by simp [Pc.Remaining]) no⟩
  · obtain ⟨id', x, data, mem', free, hx, rt', none⟩ := h.object o obj ho rt
    refine ⟨id', x, data, mem', pending.not.mpr free, hx, rt', fun hn => ?_⟩
    exact (setFunction_ne (ne free) _).trans (none hn)

theorem runtimeOk_unregistered (inv : Inv s log) {c : ContextId} {rest : List Int}
    (pc : s.pc r = .unregister c rest) {id : Int} (hid : id ∈ rest) :
    RuntimeOk (s.setFunction id none) log (.unregister c (rest.filter (· != id))) r := by
  have h := inv.runtime r
  rw [pc] at h
  obtain ⟨x, fns, hx, rt, ctx, hf, sub⟩ := h.pc
  obtain ⟨_, fn, mem, _⟩ := (h.context c x hx rt).sound fns id hf (sub hid)
  have remaining {c' : ContextId} {id' : Int} (ne : id' ≠ id) :
      (Pc.unregister c (rest.filter (· != id)) : Pc F).Remaining c' id' ↔
        (Pc.unregister c rest : Pc F).Remaining c' id' := by
    simp [Pc.Remaining, ne]
  refine ⟨fun c' x' hx' rt' => ?_, fun o obj ho rt' => ?_,
    ⟨x, fns, hx, rt, ctx, hf, List.Subset.trans (List.filter_subset_self _) sub⟩, h.apart⟩
  · have ok := h.context c' x' hx' rt'
    refine ⟨ok.closed, ?_, ok.home, ?_, ?_, ?_⟩
    · intro hf' hc
      rcases ok.leaving hf' hc with eq | eq <;> cases eq
    · exact fun a ha _ => ok.entry a ha (by simp)
    · exact fun fns' id' fn' hf' mem' =>
        .inl ((ok.complete fns' id' fn' hf' mem').resolve_right (by simp [Pc.Pending]))
    · intro fns' id' hf' hid'
      obtain ⟨_, fn', mem', yes, no⟩ := ok.sound fns' id' hf' hid'
      refine ⟨by simp [Pc.Pending], fn', mem', ?_⟩
      by_cases eq : id' = id
      · subst eq
        obtain rfl : c = c' :=
          Option.some.inj (inv.functional r r _ _ id' fn fn' mem mem').2.1
        refine ⟨fun still => ?_, fun _ => setFunction_self id' none⟩
        simpa using still _ rfl
      · rw [setFunction_ne eq, remaining eq]
        exact ⟨yes, no⟩
  · obtain ⟨id', y, data, mem', _, hy, rt'', none⟩ := h.object o obj ho rt'
    refine ⟨id', y, data, mem', by simp [Pc.Pending], hy, rt'', fun hn => ?_⟩
    by_cases eq : id' = id
    · rw [eq, setFunction_self]
    · exact (setFunction_ne eq _).trans (none hn)

/-- Once the id is in no runtime's hands any more, the contexts that it does not belong to are as
before. -/
theorem ContextOk.tracked (inv : Inv s log) {owner : Option ContextId} {id : Int} {fn : F}
    (mem : .registered r owner id fn ∈ log) {c : ContextId} {x : Context}
    (h : ContextOk s log (.track owner id fn) r c x) (ne : owner ≠ some c) (hq : q.Quiet) :
    ContextOk s log q r c x where
  closed := h.closed
  leaving hf hc := by rcases h.leaving hf hc with eq | eq <;> cases eq
  home := h.home
  entry a ha _ := h.entry a ha (by simp)
  complete fns id' fn' hf mem' := by
    refine .inl ((h.complete fns id' fn' hf mem').resolve_right ?_)
    rintro ⟨_, _, eq | eq⟩ <;> cases eq
    exact ne (inv.functional r r _ _ _ _ _ mem mem').2.1
  sound fns id' hf hid := by
    obtain ⟨_, fn', mem', yes, _⟩ := h.sound fns id' hf hid
    exact ⟨hq.pending id', fn', mem', fun _ => yes (by simp [Pc.Remaining]),
      fun no => absurd (hq.remaining c id') no⟩

theorem runtimeOk_tracked_nil (inv : Inv s log) {id : Int} {fn : F}
    (h : RuntimeOk s log (.track none id fn) r) : RuntimeOk s log (.create none id fn) r where
  context c x hx rt :=
    (h.context c x hx rt).tracked inv h.pc.1 (by simp) (quiet_create none id fn)
  object o obj ho rt := (h.object o obj ho rt).quiet (quiet_create none id fn)
  pc := ⟨h.pc.1, by simp⟩
  apart := h.apart

theorem getElem?_setContext {c : Nat} {x : Context} (hx : s.contexts[c]? = some x) (y : Context)
    (c' : Nat) : (s.setContext c y).contexts[c']? = if c' = c then some y else s.contexts[c']? := by
  have lt := (List.getElem?_eq_some_iff.mp hx).1
  simp only [State.setContext, List.getElem?_set, lt, if_true, eq_comm]

/-- One context of the runtime is changed. -/
theorem RuntimeOk.setContext (h : RuntimeOk s log p r) {c : Nat} {x y : Context}
    (hx : s.contexts[c]? = some x) (rtx : x.rt = r) (rty : y.rt = r)
    (ctx : ∀ a, y.ctx = some a → x.ctx = some a) (pending : ∀ id, q.Pending id → p.Pending id)
    (gone : y.fns = none → x.fns = none ∨ Gone s log r c) (own : ContextOk s log q r c y)
    (others : ∀ c' x', c' ≠ c → ContextOk s log p r c' x' → ContextOk s log q r c' x')
    (pc : PcOk (s.setContext c y) log r q) : RuntimeOk (s.setContext c y) log q r := by
  refine ⟨fun c' x' hx' rt' => ?_, fun o obj ho rt' => ?_, pc, ?_⟩
  · have ok : ContextOk s log q r c' x' := by
      rw [getElem?_setContext hx] at hx'
      split_ifs at hx' with eq
      · subst eq
        exact Option.some.inj hx' ▸ own
      · exact others c' x' eq (h.context c' x' hx' rt')
    exact ⟨ok.closed, ok.leaving, ok.home, ok.entry, ok.complete, ok.sound⟩
  · obtain ⟨id, z, data, mem, free, hz, rtz, none⟩ := h.object o obj ho rt'
    have free' := fun hp => free (pending id hp)
    by_cases eq : obj.owner = c
    · refine ⟨id, y, data, mem, free', ?_, rty, fun hn => ?_⟩
      · rw [getElem?_setContext hx, if_pos eq]
      · rw [eq, hx] at hz
        rcases gone hn with hn | hn
        · exact none (Option.some.inj hz ▸ hn)
        · exact hn id obj.fn (eq ▸ mem)
    · refine ⟨id, z, data, mem, free', ?_, rtz, none⟩
      rw [getElem?_setContext hx, if_neg eq]
      exact hz
  · have before {c' : Nat} {x' : Context} {a : Addr}
        (hx' : (s.setContext c y).contexts[c']? = some x') (rt' : x'.rt = r)
        (ha : x'.ctx = some a) : ∃ z, s.contexts[c']? = some z ∧ z.rt = r ∧ z.ctx = some a := by
      rw [getElem?_setContext hx] at hx'
      split_ifs at hx' with eq
      · subst eq
        cases hx'
        exact ⟨x, hx, rtx, ctx a ha⟩
      · exact ⟨x', hx', rt', ha⟩
    intro c' c'' x' x'' a hx' hx'' rt' rt'' ha' ha''
    obtain ⟨z', hz', rtz', hc'⟩ := before hx' rt' ha'
    obtain ⟨z'', hz'', rtz'', hc''⟩ := before hx'' rt'' ha''
    exact h.apart c' c'' z' z'' a hz' hz'' rtz' rtz'' hc' hc''

/-- A context that `Close` has left gets no function; the mutex stays locked. -/
theorem runtimeOk_panicked (inv : Inv s log) {c : Nat} {id : Int} {fn : F}
    (h : RuntimeOk s log (.track (some c) id fn) r) {x : Context} (hx : s.contexts[c]? = some x)
    (rt : x.rt = r) (nil : x.fns = none) :
    RuntimeOk (s.setContext c { x with locked := true }) log .idle r := by
  have ok := h.context c x hx rt
  refine h.setContext hx rt rt (fun _ ha => ha) (fun id hp => absurd hp (quiet_idle.pending id))
    .inl ?_ ?_ trivial
  · refine ⟨ok.closed, ?_, ok.home, fun a ha _ => ok.entry a ha (by simp), ?_, ?_⟩
    · intro hf hc
      rcases ok.leaving hf hc with eq | eq <;> cases eq
    · intro fns _ _ hf
      cases nil.symm.trans hf
    · intro fns _ hf
      cases nil.symm.trans hf
  · exact fun c' x' ne ok' => ok'.tracked inv h.pc.1 (by simpa using ne.symm) quiet_idle

theorem runtimeOk_tracked (inv : Inv s log) {c : Nat} {id : Int} {fn : F}
    (h : RuntimeOk s log (.track (some c) id fn) r) {x : Context} (hx : s.contexts[c]? = some x)
    (rt : x.rt = r) {fns : List Int} (hf : x.fns = some fns) :
    RuntimeOk (s.setContext c { x with fns := some (id :: fns) }) log (.create (some c) id fn) r := by
  have ok := h.context c x hx rt
  have hq := quiet_create (some c) id fn
  obtain ⟨mem, stored, _⟩ := h.pc
  refine h.setContext hx rt rt (fun _ ha => ha) (fun id hp => absurd hp (hq.pending id)) (by simp)
    ?_ ?_ ⟨mem, ?_⟩
  · refine ⟨?_, by simp, ok.home, fun a ha _ => ok.entry a ha (by simp), ?_, ?_⟩
    · intro hc
      cases hf.symm.trans (ok.closed hc)
    · intro _ id' fn' eq mem'
      cases eq
      rcases ok.complete fns id' fn' hf mem' with hid | ⟨_, _, eq | eq⟩
      · exact .inl (List.mem_cons_of_mem id hid)
      · cases eq
      · cases eq
        exact .inl List.mem_cons_self
    · intro _ id' eq hid
      cases eq
      refine ⟨hq.pending id', ?_⟩
      rcases List.mem_cons.mp hid with rfl | hid
      · exact ⟨fn, mem, fun _ => stored, fun no => absurd (hq.remaining c id') no⟩
      · obtain ⟨_, fn', mem', yes, _⟩ := ok.sound fns id' hf hid
        exact ⟨fn', mem', fun _ => yes (by simp [Pc.Remaining]),
          fun no => absurd (hq.remaining c id') no⟩
  · exact fun c' x' ne ok' => ok'.tracked inv mem (by simpa using ne.symm) hq
  · intro c' eq
    cases eq
    exact ⟨_, id :: fns, (getElem?_setContext hx _ c).trans (if_pos rfl), rt, rfl⟩

theorem runtimeOk_created {c : Nat} {id : Int} {fn : F}
    (h : RuntimeOk s log (.create (some c) id fn) r) :
    RuntimeOk (s.addObject ⟨r, newInt64 id, c, fn⟩) log .idle r := by
  obtain ⟨mem, owned⟩ := h.pc
  obtain ⟨x, fns, hx, rt, hf⟩ := owned c rfl
  refine ⟨fun c' x' hx' rt' => ?_, fun o obj ho rt' => ?_, trivial, h.apart⟩
  · have ok := (h.context c' x' hx' rt').quiet (quiet_create (some c) id fn) quiet_idle
    exact ⟨ok.closed, ok.leaving, ok.home, ok.entry, ok.complete, ok.sound⟩
  · simp only [State.addObject, List.getElem?_append] at ho
    split_ifs at ho
    · exact (h.object o obj ho rt').quiet quiet_idle
    · obtain rfl := List.mem_singleton.mp (List.mem_of_getElem? ho)
      refine ⟨id, x, rfl, mem, quiet_idle.pending id, hx, rt, fun none => ?_⟩
      cases hf.symm.trans none

/-- At the end of the loop no id of the context is registered. -/
theorem runtimeOk_forgotten {c : Nat} (h : RuntimeOk s log (.unregister c []) r) {x : Context}
    (hx : s.contexts[c]? = some x) :
    RuntimeOk (s.setContext c { x with fns := none }) log (.leave c) r := by
  obtain ⟨x', fns, hx', rt, ctx, hf, _⟩ := h.pc
  cases hx'.symm.trans hx
  have ok := h.context c x hx rt
  have gone : Gone s log r c := by
    intro id fn mem
    have hid := (ok.complete fns id fn hf mem).resolve_right (by simp [Pc.Pending])
    obtain ⟨_, _, _, _, no⟩ := ok.sound fns id hf hid
    exact no (by simp [Pc.Remaining])
  refine h.setContext hx rt rt (fun _ ha => ha) (by simp [Pc.Pending]) (fun _ => .inr gone) ?_ ?_
    ⟨_, (getElem?_setContext hx _ c).trans (if_pos rfl), rt, ctx, rfl, gone⟩
  · refine ⟨fun _ => rfl, fun _ _ => .inl rfl, ok.home, fun a ha _ => ok.entry a ha (by simp), ?_, ?_⟩
    · intro fns' _ _ hf'
      cases hf'
    · intro fns' _ hf'
      cases hf'
  · intro c' y ne ok'
    refine ⟨ok'.closed, ?_, ok'.home, fun a ha _ => ok'.entry a ha (by simp), ?_, ?_⟩
    · intro hf' hc
      rcases ok'.leaving hf' hc with eq | eq <;> cases eq
    · exact fun fns' id fn hf' mem =>
        .inl ((ok'.complete fns' id fn hf' mem).resolve_right (by simp [Pc.Pending]))
    · intro fns' id hf' hid
      obtain ⟨_, fn, mem, yes, _⟩ := ok'.sound fns' id hf' hid
      refine ⟨by simp [Pc.Pending], fn, mem, fun _ => yes ?_,
        fun no => absurd (by simp [Pc.Remaining]) no⟩
      rintro rest eq
      cases eq
      exact absurd rfl ne

theorem runtimeOk_left {c : Nat} (h : RuntimeOk s log (.leave c) r) {x : Context} {a : Addr}
    (hx : s.contexts[c]? = some x) (ctx : x.ctx = some a) :
    RuntimeOk (s.setEntry a none) log (.free c) r := by
  obtain ⟨x', hx', rt, _, nil, gone⟩ := h.pc
  cases hx'.symm.trans hx
  refine ⟨fun c' y hy rty => ?_, fun o obj ho rt' => ?_, ⟨x, hx, rt, nil, gone, ?_⟩, h.apart⟩
  · have ok := h.context c' y hy rty
    refine ⟨ok.closed, ?_, ok.home, ?_, ?_, ?_⟩
    · intro hf hc
      rcases ok.leaving hf hc with eq | eq <;> cases eq
      exact .inr rfl
    · intro a' ha' ne
      have other : a' ≠ a := by
        rintro rfl
        exact ne (congrArg Pc.free (h.apart c c' x y a' hx hy rt rty ctx ha'))
      simpa [State.setEntry, other] using ok.entry a' ha' (by simp)
    · exact fun fns id fn hf mem =>
        .inl ((ok.complete fns id fn hf mem).resolve_right (by simp [Pc.Pending]))
    · intro fns id hf hid
      obtain ⟨_, fn, mem, yes, _⟩ := ok.sound fns id hf hid
      exact ⟨by simp [Pc.Pending], fn, mem, fun _ => yes (by simp [Pc.Remaining]),
        fun no => absurd (by simp [Pc.Remaining]) no⟩
  · obtain ⟨id, z, data, mem, _, rest⟩ := h.object o obj ho rt'
    exact ⟨id, z, data, mem, by simp [Pc.Pending], rest⟩
  · intro a' ha'
    cases ctx.symm.trans ha'
    exact ⟨(h.context c x hx rt).home a ctx, by simp [State.setEntry]⟩

theorem runtimeOk_freed {c : Nat} (h : RuntimeOk s log (.free c) r) {x : Context}
    (hx : s.contexts[c]? = some x) :
    RuntimeOk (s.setContext c { x with ctx := none }) log .idle r := by
  obtain ⟨x', hx', rt, nil, _⟩ := h.pc
  cases hx'.symm.trans hx
  refine h.setContext hx rt rt (by simp) (fun id hp => absurd hp (quiet_idle.pending id)) .inl ?_ ?_
    trivial
  · refine ⟨fun _ => nil, fun _ ne => absurd rfl ne, by simp, by simp, ?_, ?_⟩
    · intro fns _ _ hf
      cases nil.symm.trans hf
    · intro fns _ hf
      cases nil.symm.trans hf
  · intro c' y ne ok
    refine ⟨ok.closed, ?_, ok.home, ?_, ?_, ?_⟩
    · intro hf hc
      rcases ok.leaving hf hc with eq | eq <;> cases eq
      exact absurd rfl ne
    · intro a ha _
      refine ok.entry a ha ?_
      rintro eq
      cases eq
      exact ne rfl
    · exact fun fns id fn hf mem =>
        .inl ((ok.complete fns id fn hf mem).resolve_right (by simp [Pc.Pending]))
    · intro fns id hf hid
      obtain ⟨_, fn, mem, yes, _⟩ := ok.sound fns id hf hid
      exact ⟨quiet_idle.pending id, fn, mem, fun _ => yes (by simp [Pc.Remaining]),
        fun no => absurd (quiet_idle.remaining c' id) no⟩

theorem getElem?_addContext {c : Nat} {x y : Context} (h : (s.addContext y).contexts[c]? = some x) :
    s.contexts[c]? = some x ∨ c = s.contexts.length ∧ x = y := by
  simp only [State.addContext, List.getElem?_append] at h
  split_ifs at h with lt
  · exact .inl h
  · obtain ⟨zero, eq⟩ := List.getElem?_eq_some_iff.mp h
    simp only [List.length_singleton, Nat.lt_one_iff] at zero
    exact .inr ⟨by omega, by simpa [zero] using eq.symm⟩

/-- The new context has an empty set, and an entry under an address that no other one has. -/
theorem runtimeOk_opened (inv : Inv s log) {a : Addr} (h : RuntimeOk s log (.newContext a) r) :
    RuntimeOk ((s.addContext ⟨some a, r, some [], false⟩).setEntry a (some s.contexts.length)) log
      .idle r := by
  obtain ⟨home, fresh⟩ := h.pc
  refine ⟨fun c x hx rt => ?_, fun o obj ho rt => ?_, trivial, ?_⟩
  · rcases getElem?_addContext hx with hx | ⟨rfl, rfl⟩
    · have ok := (h.context c x hx rt).quiet (quiet_newContext a) quiet_idle
      refine ⟨ok.closed, ok.leaving, ok.home, fun a' ha' ne => ?_, ok.complete, ok.sound⟩
      have other : a' ≠ a := fun eq => fresh c x hx rt (eq ▸ ha')
      simpa [State.setEntry, State.addContext, other] using ok.entry a' ha' ne
    · refine ⟨by simp, by simp, ?_, ?_, ?_, ?_⟩
      · rintro a' eq
        cases eq
        exact home
      · rintro a' eq _
        cases eq
        simp [State.setEntry]
      · intro _ id fn _ mem
        exact absurd (inv.owned r _ id fn mem) (lt_irrefl _)
      · rintro _ id eq hid
        cases eq
        cases hid
  · obtain ⟨id, x, data, mem, _, hx, rest⟩ := h.object o obj ho rt
    refine ⟨id, x, data, mem, quiet_idle.pending id, ?_, rest⟩
    exact (List.getElem?_append_left (List.getElem?_eq_some_iff.mp hx).1).trans hx
  · intro c c' x x' a' hx hx' rt rt' ha ha'
    rcases getElem?_addContext hx with hx | ⟨rfl, rfl⟩ <;>
      rcases getElem?_addContext hx' with hx' | ⟨rfl, rfl⟩
    · exact h.apart c c' x x' a' hx hx' rt rt' ha ha'
    · cases ha'
      exact absurd ha (fresh c x hx rt)
    · cases ha
      exact absurd ha' (fresh c' x' hx' rt')
    · rfl

/-- A step that gives out no id, put together from what it leaves to its own runtime and to the
others. -/
theorem Inv.of_quiet (inv : Inv s log) (out : Outside r s t log ev)
    (quiet : ∀ r owner id fn, .registered r owner id fn ∉ ev) (counter : t.fnCounter = s.fnCounter)
    (contexts : s.contexts.length ≤ t.contexts.length)
    (entry : ∀ a c, t.ctxRegistry a = some c → ∃ x, t.contexts[c]? = some x ∧ x.ctx = some a)
    (own : RuntimeOk t (log ++ ev) (t.pc r) r) : Inv t (log ++ ev) := by
  have old {r : RuntimeId} {owner : Option ContextId} {id : Int} {fn : F}
      (mem : .registered r owner id fn ∈ log ++ ev) : .registered r owner id fn ∈ log :=
    (List.mem_append.mp mem).resolve_right (quiet r owner id fn)
  have none : idsOf ev = [] := by
    refine List.filterMap_eq_nil_iff.mpr fun e he => ?_
    cases e with
    | registered r owner id fn => exact absurd he (quiet r owner id fn)
    | panicked | closed | ran | threw => rfl
  refine ⟨?_, ?_, fun r c id fn mem => (inv.owned r c id fn (old mem)).trans_le contexts, entry,
    fun r' => ?_⟩
  · rw [counter, ← inv.ids, ← List.append_nil (idsOf log), ← none]
    exact List.filterMap_append
  · exact fun r r' owner owner' id fn fn' mem mem' =>
      inv.functional r r' owner owner' id fn fn' (old mem) (old mem')
  · by_cases eq : r' = r
    · exact eq ▸ own
    · rw [out.pc r' eq]
      exact (inv.runtime r').outside out eq

/-- What a step of `r` keeps. -/
def Kept (r : RuntimeId) (s t : State F) (log ev : List (Event F)) : Prop :=
  Inv t (log ++ ev) ∧ Outside r s t log ev

/-- A step ends by going to the next statement. -/
theorem kept_goto {u : State F} (inv : Inv s log) (out : Outside r s u log [])
    (quiet : ∀ r owner id fn, .registered r owner id fn ∉ ev) (counter : u.fnCounter = s.fnCounter)
    (contexts : s.contexts.length ≤ u.contexts.length)
    (entry : ∀ a c, u.ctxRegistry a = some c → ∃ x, u.contexts[c]? = some x ∧ x.ctx = some a)
    (own : RuntimeOk u (log ++ ev) q r) : Kept r s (u.goto r q) log ev := by
  have out' : Outside r s (u.goto r q) log ev :=
    (out.trans (outside_goto q)).emit fun r' owner id fn _ => quiet r' owner id fn
  have here : (u.goto r q).pc r = q := by simp [State.goto]
  refine ⟨inv.of_quiet out' quiet counter contexts entry ?_, out'⟩
  rw [here]
  exact own.goto

theorem outside_refl : Outside r s s log [] where
  counter := le_rfl
  pc _ _ := rfl
  context _ _ _ := Iff.rfl
  object _ _ _ := Iff.rfl
  registry _ _ _ _ _ _ := rfl
  entry _ _ _ _ := rfl
  home _ _ _ h := h
  event _ _ _ _ _ := List.not_mem_nil

/-- A step that only goes on. -/
theorem kept_pc (inv : Inv s log) (own : RuntimeOk s log q r) : Kept r s (s.goto r q) log [] := by
  refine kept_goto inv outside_refl (by simp) rfl le_rfl inv.entry ?_
  rwa [List.append_nil]

theorem isIdle_iff : s.isIdle r = true ↔ s.pc r = .idle := by
  unfold State.isIdle
  split <;> simp_all

theorem kept_newContext (inv : Inv s log) {a : Addr} (h : newContext s r a = some (t, ev)) :
    Kept r s t log ev := by
  simp only [newContext] at h
  split_ifs at h with ok
  cases h
  obtain ⟨idle, unused⟩ := Bool.and_eq_true_iff.mp ok
  have none : s.home a = none := Option.isNone_iff_eq_none.mp unused
  have own := inv.runtime r
  rw [isIdle_iff.mp idle] at own
  have fresh (c : Nat) (x : Context) (hx : s.contexts[c]? = some x) (rt : x.rt = r) :
      x.ctx ≠ some a := by
    intro ha
    cases none.symm.trans ((own.context c x hx rt).home a ha)
  refine kept_goto inv (outside_setHome (by simp [none]) _) (by simp) rfl le_rfl inv.entry ?_
  rw [List.append_nil]
  refine (own.setHome fresh _).quiet quiet_idle (quiet_newContext a) ⟨?_, fresh⟩
  simp [State.setHome]

theorem kept_registerFunction (inv : Inv s log) (idle : s.isIdle r = true)
    {owner : Option ContextId}
    (owned : ∀ c, owner = some c → ∃ x, s.contexts[c]? = some x ∧ x.rt = r) {fn : F}
    (h : registerFunction s r owner fn = some (t, ev)) : Kept r s t log ev := by
  cases h
  have own := runtimeOk_register inv (isIdle_iff.mp idle) owned fn
  have out : Outside r s
      (({ s with fnCounter := s.fnCounter + 1 } : State F).goto r (.register owner (s.fnCounter + 1) fn))
      log [.registered r owner (s.fnCounter + 1) fn] := by
    have step : Outside r s { s with fnCounter := s.fnCounter + 1 } log [] :=
      { outside_refl with counter := Nat.le_succ _ }
    refine (step.trans (outside_goto _)).emit fun r' _ _ _ ne mem => ?_
    cases List.mem_singleton.mp mem
    exact ne rfl
  refine ⟨⟨?_, ?_, ?_, inv.entry, fun r' => ?_⟩, out⟩
  · simp [idsOf, State.goto, List.range_succ, ← inv.ids]
  · intro r₁ r₂ owner₁ owner₂ id fn₁ fn₂ mem₁ mem₂
    rcases List.mem_append.mp mem₁ with mem₁ | mem₁ <;>
      rcases List.mem_append.mp mem₂ with mem₂ | mem₂
    · exact inv.functional r₁ r₂ owner₁ owner₂ id fn₁ fn₂ mem₁ mem₂
    · cases List.mem_singleton.mp mem₂
      have le := (inv.id_range mem₁).2
      omega
    · cases List.mem_singleton.mp mem₁
      have le := (inv.id_range mem₂).2
      omega
    · cases List.mem_singleton.mp mem₁
      cases List.mem_singleton.mp mem₂
      exact ⟨rfl, rfl, rfl⟩
  · intro r' c id fn' mem
    rcases List.mem_append.mp mem with mem | mem
    · exact inv.owned r' c id fn' mem
    · cases List.mem_singleton.mp mem
      obtain ⟨x, hx, _⟩ := owned c rfl
      exact (List.getElem?_eq_some_iff.mp hx).1
  · by_cases eq : r' = r
    · subst eq
      simp only [State.goto, Function.update_self]
      exact own.goto
    · rw [out.pc r' eq]
      exact (inv.runtime r').outside out eq

theorem owns_iff {c : ContextId} :
    s.owns r c = true ↔ ∃ x, s.contexts[c]? = some x ∧ x.rt = r := by
  unfold State.owns
  split <;> simp_all

theorem kept_newFunction (inv : Inv s log) {c : ContextId} {fn : F}
    (h : newFunction s r c fn = some (t, ev)) : Kept r s t log ev := by
  simp only [newFunction] at h
  split_ifs at h with ok
  obtain ⟨idle, owned⟩ := Bool.and_eq_true_iff.mp ok
  refine kept_registerFunction inv idle ?_ h
  rintro _ ⟨⟩
  exact owns_iff.mp owned

theorem kept_setFunction (inv : Inv s log) {owner : Option ContextId} {fn : F}
    (h : setFunction s r owner fn = some (t, ev)) : Kept r s t log ev := by
  simp only [setFunction] at h
  split_ifs at h with ok
  obtain ⟨idle, owned⟩ := Bool.and_eq_true_iff.mp ok
  refine kept_registerFunction inv idle ?_ h
  rintro c rfl
  exact owns_iff.mp owned

theorem kept_close (inv : Inv s log) {c : ContextId} (h : close s r c = some (t, ev)) :
    Kept r s t log ev := by
  simp only [close] at h
  split at h
  · cases h
  · rename_i x hx
    split_ifs at h with ok
    obtain ⟨idle, rt⟩ := Bool.and_eq_true_iff.mp ok
    split at h
    · cases h
      exact ⟨by rwa [List.append_nil], outside_refl⟩
    · rename_i a ctx
      cases h
      have own := inv.runtime r
      rw [isIdle_iff.mp idle] at own
      exact kept_pc inv (runtimeOk_close own hx (beq_iff_eq.mp rt) ctx)

theorem kept_unregisterFunction (inv : Inv s log) {id : Int}
    (h : unregisterFunction s r id = some (t, ev)) : Kept r s t log ev := by
  simp only [unregisterFunction] at h
  split at h
  · rename_i c rest pc
    split_ifs at h with hid
    cases h
    have own := inv.runtime r
    rw [pc] at own
    obtain ⟨x, fns, hx, rt, _, hf, sub⟩ := own.pc
    obtain ⟨_, fn, mem, _⟩ := (own.context c x hx rt).sound fns id hf (sub hid)
    refine kept_goto inv (outside_setFunction inv mem none) (by simp) rfl le_rfl inv.entry ?_
    rw [List.append_nil]
    exact runtimeOk_unregistered inv pc hid
  · cases h

/-- What a call finds in the registry is decided by whether the owner is open. -/
theorem registry_of_object (inv : Inv s log) (few : s.fnCounter < 2 ^ 53) (idle : s.pc r = .idle)
    {o : Nat} {obj : Object F} (ho : s.objects[o]? = some obj) (rt : obj.rt = r) :
    ∃ x, s.contexts[obj.owner]? = some x ∧ x.rt = r ∧
      (x.ctx ≠ none → s.fnRegistry (toInt64 obj.data) = some obj.fn) ∧
      (x.ctx = none → s.fnRegistry (toInt64 obj.data) = none) := by
  have own := inv.runtime r
  rw [idle] at own
  obtain ⟨id, x, data, mem, pending, hx, rtx, none⟩ := own.object o obj ho rt
  have ok := own.context obj.owner x hx rtx
  have exact : toInt64 obj.data = id := by
    have range := inv.id_range mem
    rw [data, toInt64_newInt64 (by omega)]
  rw [exact]
  refine ⟨x, hx, rtx, fun isOpen => ?_, fun closed => none (ok.closed closed)⟩
  have nonNil : x.fns ≠ Option.none := fun nil => quiet_idle.leaving _ (ok.leaving nil isOpen)
  obtain ⟨fns, hf⟩ := Option.ne_none_iff_exists'.mp nonNil
  have hid := (ok.complete fns id obj.fn hf mem).resolve_right pending
  obtain ⟨_, fn, mem', yes, _⟩ := ok.sound fns id hf hid
  rw [yes (quiet_idle.remaining _ id), (inv.functional r r _ _ id _ _ mem mem').2.2]

/-- A step that only reports. -/
theorem kept_emit (inv : Inv s log) (idle : s.pc r = .idle)
    (quiet : ∀ r owner id fn, .registered r owner id fn ∉ ev) : Kept r s s log ev := by
  have out : Outside r s s log ev := outside_refl.emit fun r' owner id fn _ => quiet r' owner id fn
  have own := inv.runtime r
  refine ⟨inv.of_quiet out quiet rfl le_rfl inv.entry ?_, out⟩
  rw [idle] at own ⊢
  exact own.emit (quiet r)

theorem kept_call (inv : Inv s log) {o : Nat} {caller : Addr}
    (h : call s r o caller = some (t, ev)) : Kept r s t log ev := by
  simp only [call] at h
  split at h
  · cases h
  · rename_i obj ho
    split_ifs at h with ok
    simp only [Bool.and_eq_true, beq_iff_eq, isIdle_iff] at ok
    obtain ⟨⟨idle, rt⟩, home⟩ := ok
    split at h
    · cases h
      exact kept_emit inv idle (by simp)
    · rename_i fn found
      cases h
      have own := inv.runtime r
      rw [idle] at own
      obtain ⟨id, x, _, _, _, hx, rtx, _⟩ := own.object o obj ho rt
      refine kept_pc inv (own.quiet quiet_idle (quiet_invoke o caller fn)
        ⟨home, obj, x, ho, rt, hx, rtx, fun few => ?_⟩)
      obtain ⟨y, hy, _, yes, no⟩ := registry_of_object inv few idle ho rt
      cases hx.symm.trans hy
      have isOpen : x.ctx ≠ none := fun closed => by
        cases found.symm.trans (no closed)
      exact ⟨isOpen, Option.some.inj (found.symm.trans (yes isOpen))⟩

theorem kept_collect (inv : Inv s log) {a : Addr} (h : collect s r a = some (t, ev)) :
    Kept r s t log ev := by
  simp only [collect] at h
  split_ifs at h with ok
  cases h
  simp only [Bool.and_eq_true, beq_iff_eq, isIdle_iff, List.all_eq_true, bne_iff_ne] at ok
  obtain ⟨⟨idle, home⟩, unused⟩ := ok
  have out : Outside r s (s.setHome a none) log [] := outside_setHome (by simp [home]) none
  have own := inv.runtime r
  rw [idle] at own
  refine ⟨inv.of_quiet out (by simp) rfl le_rfl inv.entry ?_, out⟩
  have here : (s.setHome a none).pc r = .idle := idle
  rw [here, List.append_nil]
  exact own.setHome (fun c x hx _ => unused x (List.mem_of_getElem? hx)) none

/-- A context that keeps its address keeps its entry. -/
theorem entry_setContext (inv : Inv s log) {c : Nat} {x y : Context} (hx : s.contexts[c]? = some x)
    (ctx : ∀ a, s.ctxRegistry a = some c → x.ctx = some a → y.ctx = some a) (a : Addr)
    (c' : ContextId) (h : s.ctxRegistry a = some c') :
    ∃ z, (s.setContext c y).contexts[c']? = some z ∧ z.ctx = some a := by
  obtain ⟨z, hz, ha⟩ := inv.entry a c' h
  rw [getElem?_setContext hx]
  by_cases eq : c' = c
  · subst eq
    cases hx.symm.trans hz
    exact ⟨y, if_pos rfl, ctx a h ha⟩
  · exact ⟨z, (if_neg eq).trans hz, ha⟩

theorem length_setContext (c : Nat) (y : Context) :
    s.contexts.length ≤ (s.setContext c y).contexts.length :=
  (List.length_set ..).ge

theorem entry_opened (inv : Inv s log) {a : Addr} (a' : Addr) (c : ContextId)
    (h : ((s.addContext ⟨some a, r, some [], false⟩).setEntry a
      (some s.contexts.length)).ctxRegistry a' = some c) :
    ∃ x, (s.addContext ⟨some a, r, some [], false⟩).contexts[c]? = some x ∧ x.ctx = some a' := by
  by_cases eq : a' = a
  · subst eq
    simp only [State.setEntry, Function.update_self, Option.some.injEq] at h
    subst h
    exact ⟨_, List.getElem?_concat_length, rfl⟩
  · have old : s.ctxRegistry a' = some c := by
      simpa [State.setEntry, State.addContext, eq] using h
    obtain ⟨x, hx, ha⟩ := inv.entry a' c old
    exact ⟨x, (List.getElem?_append_left (List.getElem?_eq_some_iff.mp hx).1).trans hx, ha⟩

/-- The id of a function goes into the map of its context. -/
theorem kept_track (inv : Inv s log) {c : ContextId} {id : Int} {fn : F}
    (pc : s.pc r = .track (some c) id fn) (h : next s r = some (t, ev)) : Kept r s t log ev := by
  have own := inv.runtime r
  rw [pc] at own
  obtain ⟨x, hx, rt⟩ := own.pc.2.2 c rfl
  simp only [next, pc, hx] at h
  split_ifs at h
  split at h
  · rename_i nil
    cases h
    refine kept_goto inv (outside_setContext hx rt rt) (by simp) rfl (length_setContext c _)
      (entry_setContext inv hx fun _ _ ha => ha) ?_
    exact (runtimeOk_panicked inv own hx rt nil).emit (by simp)
  · rename_i fns hf
    cases h
    refine kept_goto inv (outside_setContext hx rt rt) (by simp) rfl (length_setContext c _)
      (entry_setContext inv hx fun _ _ ha => ha) ?_
    rw [List.append_nil]
    exact runtimeOk_tracked inv own hx rt hf

/-- The entry of a context that is closed is deleted. -/
theorem kept_leave (inv : Inv s log) {c : ContextId} (pc : s.pc r = .leave c)
    (h : next s r = some (t, ev)) : Kept r s t log ev := by
  have own := inv.runtime r
  rw [pc] at own
  simp only [next, pc] at h
  split at h
  · rename_i a rt' fns locked hx
    cases h
    obtain ⟨x, hx', rt, _⟩ := own.pc
    have home := (own.context c _ hx' rt).home a (by cases hx'.symm.trans hx; rfl)
    refine kept_goto inv (outside_setEntry home none) (by simp) rfl le_rfl ?_ ?_
    · intro a' c' h'
      by_cases eq : a' = a
      · simp [State.setEntry, eq] at h'
      · exact inv.entry a' c' (by simpa [State.setEntry, eq] using h')
    · rw [List.append_nil]
      exact runtimeOk_left own hx rfl
  · cases h

theorem kept_next (inv : Inv s log) (h : next s r = some (t, ev)) : Kept r s t log ev := by
  have own := inv.runtime r
  cases pc : s.pc r with
  | idle =>
    simp only [next, pc] at h
    cases h
  | newContext a =>
    rw [pc] at own
    simp only [next, pc] at h
    cases h
    have added : Outside r s (s.addContext ⟨some a, r, some [], false⟩) log [] :=
      outside_addContext rfl
    let u := s.addContext ⟨some a, r, some [], false⟩
    have entered : Outside r u (u.setEntry a (some s.contexts.length)) log [] :=
      outside_setEntry (show u.home a = some r from own.pc.1) _
    refine kept_goto inv (added.trans entered) (by simp)
      rfl (by simp [State.setEntry, State.addContext]) (entry_opened inv) ?_
    rw [List.append_nil]
    exact runtimeOk_opened inv own
  | register owner id fn =>
    rw [pc] at own
    simp only [next, pc] at h
    cases h
    refine kept_goto inv (outside_setFunction inv own.pc.1 _) (by simp) rfl le_rfl inv.entry ?_
    rw [List.append_nil]
    exact runtimeOk_stored own
  | track owner id fn =>
    cases owner with
    | none =>
      rw [pc] at own
      simp only [next, pc] at h
      cases h
      exact kept_pc inv (runtimeOk_tracked_nil inv own)
    | some c => exact kept_track inv pc h
  | create owner id fn =>
    rw [pc] at own
    simp only [next, pc] at h
    cases owner with
    | none =>
      cases h
      refine kept_goto inv outside_refl (by simp) rfl le_rfl inv.entry ?_
      exact (own.quiet (quiet_create _ _ _) quiet_idle trivial).emit (by simp)
    | some c =>
      cases h
      refine kept_goto inv (outside_addObject rfl) (by simp) rfl le_rfl inv.entry ?_
      rw [List.append_nil]
      exact runtimeOk_created own
  | unregister c rest =>
    rw [pc] at own
    simp only [next, pc] at h
    cases rest with
    | nil =>
      obtain ⟨x, _, hx, rt, _⟩ := own.pc
      simp only [hx] at h
      cases h
      refine kept_goto inv (outside_setContext hx rt rt) (by simp) rfl (length_setContext c _)
        (entry_setContext inv hx fun _ _ ha => ha) ?_
      rw [List.append_nil]
      exact runtimeOk_forgotten own hx
    | cons id rest => cases h
  | leave c => exact kept_leave inv pc h
  | free c =>
    rw [pc] at own
    obtain ⟨x, hx, rt, _, _, entry⟩ := own.pc
    simp only [next, pc, hx] at h
    cases h
    refine kept_goto inv (outside_setContext hx rt rt) (by simp) rfl (length_setContext c _)
      (entry_setContext inv hx fun a h' ha => absurd h' (entry a ha).2) ?_
    exact (runtimeOk_freed own hx).emit (by simp)
  | invoke o caller fn =>
    rw [pc] at own
    have idle := own.quiet (quiet_invoke o caller fn) quiet_idle trivial
    simp only [next, pc] at h
    cases entry : s.ctxRegistry caller with
    | none =>
      rw [entry] at h
      cases h
      exact kept_goto inv outside_refl (by simp) rfl le_rfl inv.entry (idle.emit (by simp))
    | some c =>
      rw [entry] at h
      cases h
      exact kept_goto inv outside_refl (by simp) rfl le_rfl inv.entry (idle.emit (by simp))

theorem registerFunction_transition {a : Action F} {owner : Option ContextId} {fn : F}
    (call : a = .setFunction r owner fn ∨ ∃ c, owner = some c ∧ a = .newFunction r c fn)
    (idle : s.pc r = .idle) (owned : ∀ c, owner = some c → s.owns r c = true)
    (h : registerFunction s r owner fn = some (t, ev)) : Transition s a t ev := by
  cases h
  exact .register call idle owned

theorem next_transition (h : next s r = some (t, ev)) : Transition s (.next r) t ev := by
  simp only [next] at h
  split at h <;> rename_i pc
  case h_1 => cases h
  case h_2 ctx =>
    cases h
    exact .contextMade pc
  case h_3 owner id fn =>
    cases h
    exact .store pc
  case h_4 id fn =>
    cases h
    exact .trackNil pc
  case h_5 c id fn =>
    split at h
    · cases h
    · rename_i x found
      split_ifs at h with locked
      split at h
      · rename_i none
        cases h
        exact .trackClosed pc found none
      · rename_i fns some
        cases h
        exact .track pc found some
  case h_6 id fn =>
    cases h
    exact .createNil pc
  case h_7 c id fn =>
    cases h
    exact .create pc
  case h_8 c =>
    split at h
    · cases h
    · rename_i x found
      cases h
      exact .forget pc found
  case h_9 => cases h
  case h_10 c =>
    split at h
    · rename_i ctx rt fns locked found
      cases h
      exact .leave pc found rfl
    · cases h
  case h_11 c =>
    split at h
    · cases h
    · rename_i x found
      cases h
      exact .free pc found
  case h_12 o caller fn =>
    split at h
    · rename_i unknown
      cases h
      exact .noContext pc unknown
    · rename_i c known
      cases h
      exact .ran pc known

theorem step_transition {a : Action F} (h : Functions.step s a = some (t, ev)) :
    Transition s a t ev := by
  cases a with
  | newContext r ctx =>
    simp only [Functions.step, newContext] at h
    split_ifs at h with can
    obtain ⟨idle, unused⟩ := Bool.and_eq_true_iff.mp can
    cases h
    exact .newContext (isIdle_iff.mp idle) (Option.isNone_iff_eq_none.mp unused)
  | newFunction r c fn =>
    simp only [Functions.step, newFunction] at h
    split_ifs at h with can
    obtain ⟨idle, owned⟩ := Bool.and_eq_true_iff.mp can
    refine registerFunction_transition (.inr ⟨c, rfl, rfl⟩) (isIdle_iff.mp idle) ?_ h
    rintro _ ⟨⟩
    exact owned
  | setFunction r owner fn =>
    simp only [Functions.step, setFunction] at h
    split_ifs at h with can
    obtain ⟨idle, owned⟩ := Bool.and_eq_true_iff.mp can
    refine registerFunction_transition (.inl rfl) (isIdle_iff.mp idle) ?_ h
    rintro _ rfl
    exact owned
  | close r c =>
    simp only [Functions.step, close] at h
    split at h
    · cases h
    · rename_i x found
      split_ifs at h with can
      obtain ⟨idle, rt⟩ := Bool.and_eq_true_iff.mp can
      split at h
      · rename_i closed
        cases h
        exact .closeAgain found closed
      · rename_i ctx opened
        cases h
        exact .close (isIdle_iff.mp idle) found (beq_iff_eq.mp rt) opened
  | unregisterFunction r id =>
    simp only [Functions.step, unregisterFunction] at h
    split at h
    · rename_i c rest pc
      split_ifs at h with left
      cases h
      exact .unregisterFunction pc left
    · cases h
  | call r o caller =>
    simp only [Functions.step, call] at h
    split at h
    · cases h
    · rename_i obj found
      split_ifs at h with can
      obtain ⟨first, home⟩ := Bool.and_eq_true_iff.mp can
      obtain ⟨idle, rt⟩ := Bool.and_eq_true_iff.mp first
      split at h
      · rename_i unknown
        cases h
        exact .callUnknown found unknown
      · rename_i fn known
        cases h
        exact .call (isIdle_iff.mp idle) found (beq_iff_eq.mp rt) (beq_iff_eq.mp home) known
  | collect r ctx =>
    simp only [Functions.step, collect] at h
    split_ifs at h with can
    obtain ⟨first, _⟩ := Bool.and_eq_true_iff.mp can
    obtain ⟨idle, home⟩ := Bool.and_eq_true_iff.mp first
    cases h
    exact .collect (isIdle_iff.mp idle) (beq_iff_eq.mp home)
  | next r => exact next_transition h

theorem Inv.step (inv : Inv s log) {a : Action F} (h : Functions.step s a = some (t, ev)) :
    Kept a.runtime s t log ev := by
  cases a with
  | newContext r ctx => exact kept_newContext inv h
  | newFunction r c fn => exact kept_newFunction inv h
  | setFunction r owner fn => exact kept_setFunction inv h
  | close r c => exact kept_close inv h
  | unregisterFunction r id => exact kept_unregisterFunction inv h
  | call r o caller => exact kept_call inv h
  | collect r ctx => exact kept_collect inv h
  | next r => exact kept_next inv h

theorem inv_init : Inv (init F) [] := by
  refine ⟨rfl, by simp, by simp, by simp [init], fun r => ⟨?_, ?_, trivial, ?_⟩⟩ <;> simp [init]

theorem run_inv {as : List (Action F)} (run : exec step (init F) as = some (s, log)) : Inv s log :=
  exec_invariant_all (fun _ _ _ _ _ inv hs => (inv.step hs).1) inv_init run

end Functions
