import Goqjs.GcSteps

/-!
# Freeing never fails and comes to an end

Whatever frame is on top of the stack, the turn it takes meets no assertion that fails and
no freed header, and leaves less to do. So the calls that are under way all return.
-/

namespace Gc

open ReferenceGraph

variable {s : State} {p c : Address} {h : Header} {a b k : List Frame}

/-- What the free functions of all types have in common where the count is right. -/
theorem freeRef_eq (at_c : s.headers c = some h) (pos : 0 < h.refCount) :
    s.freeRef c = some
      (if h.refCount ≠ 1 then s.put c { h with refCount := h.refCount - 1 }
      else if h.gcObjType.isValue then
        (s.put c { h with refCount := h.refCount - 1 }).jsFreeValueRt c
      else s.release c { h with refCount := h.refCount - 1 }) := by
  have one_less := h.decref_of_pos pos
  by_cases last : h.refCount = 1
  · cases type : h.gcObjType <;>
      simp [State.freeRef, at_c, type, State.freeValueRT, State.jsFreeShape, State.freeVarRef,
        State.jsAsyncFunctionFree, State.freeContext, one_less, ObjType.isValue, last]
  · have many : ¬ h.refCount - 1 ≤ 0 := by omega
    have some_left : 1 < h.refCount := by omega
    have ne : h.refCount - 1 ≠ 0 := by omega
    cases type : h.gcObjType <;>
      simp [State.freeRef, at_c, type, State.freeValueRT, State.jsFreeShape, State.freeVarRef,
        State.jsAsyncFunctionFree, State.freeContext, one_less, last, many, some_left, ne, pos]

theorem sound_dropped (S : s.Sound) (eq : s.frames = .freeRef c :: k)
    (at_c : s.headers c = some h) (keep : h.gcObjType.isValue = true ∨ h.refCount ≠ 1) :
    (s.dropped c h k).Sound := by
  have S' := S
  rw [State.Sound, eq] at S'
  exact S'.drop at_c keep

theorem sound_waits (S : s.Sound) (mem : c ∈ s.allocated) (phase : s.gcPhase ≠ .removeCycles) :
    (s.jsFreeValueRt c).Sound := by
  have moved := Gc.Sound.of_perm S (s.perm_wait S.distinct mem)
  cases eq : s.gcPhase with
  | removeCycles => exact absurd eq phase
  | decref =>
    rw [State.jsFreeValueRt, eq]
    exact moved
  | none =>
    rw [State.jsFreeValueRt, eq]
    exact moved.of_frames (by simp [Frame.refs]) (by simp [Frame.finishes])

/-- The phase without the call on top of the stack. -/
theorem Between.pop (B : Between s) (eq : s.frames = .freeRef c :: k) :
    Between { s with frames := k } where
  phase := B.phase
  zero := B.zero
  tmp := B.tmp
  calls := fun f mem => B.calls f (by rw [eq]; exact List.mem_cons_of_mem _ mem)
  live := B.live

theorem Draining.pop (D : Draining s a b) (eq : s.frames = .freeRef c :: k) :
    ∃ a', Draining { s with frames := k } a' b := by
  obtain ⟨a', rfl, rfl⟩ := call_above (D.frames.symm.trans eq) rfl rfl
  exact ⟨a', D.phase, D.tmp, rfl, fun f mem => D.calls f (List.mem_cons_of_mem _ mem), D.live,
    fun p mem => by simpa [Frame.finishes] using D.zero p mem⟩

theorem Sweeping.pop (W : Sweeping s a) (eq : s.frames = .freeRef c :: k) :
    ∃ a', Sweeping { s with frames := k } a' := by
  obtain ⟨a', rfl, rfl⟩ := call_above (W.frames.symm.trans eq) rfl rfl
  exact ⟨a', W.phase, rfl, fun f mem => W.calls f (List.mem_cons_of_mem _ mem), W.rooted,
    W.closed, W.supported, W.unmarked,
    fun p mem hp at_p m => by simpa [Frame.finishes] using W.tmp p mem hp at_p m, W.zero⟩

/-- A live header keeps a reference besides the one that garbage gives up. -/
theorem Sweeping.not_last (W : Sweeping s a) (S : s.Sound) (eq : s.frames = .freeRef c :: k)
    (at_c : s.headers c = some h) (mem : c ∈ s.gcObjList) : h.refCount ≠ 1 := by
  have count := S.counts c h at_c
  rw [eq, count_freeRef, if_pos rfl] at count
  have other : c ∈ refs s.headers s.allocated s.handles k := by
    rcases W.supported c mem with root | ⟨q, hq, ref⟩
    · simp [refs, root]
    · refine List.mem_append_right _ (mem_heldBy.mpr ⟨q, ?_, ref⟩)
      exact State.mem_allocated.mpr (.inl hq)
  have := List.count_pos_iff.mpr other
  omega

/-- What is not referred to is in no field. -/
theorem alone_of_not_ref (S : s.Sound) (not_ref : c ∉ refs s.headers s.allocated s.handles k) :
    c ∉ s.handles ∧ ∀ q, c ∉ s.children q := by
  refine ⟨fun root => not_ref (by simp [refs, root]), fun q ref => not_ref ?_⟩
  refine List.mem_append_right _ (mem_heldBy.mpr ⟨q, ?_, ref⟩)
  rw [Gc.Sound.alloc S q]
  cases at_q : s.headers q with
  | none => simp [State.children, childrenIn, at_q] at ref
  | some h => exact ⟨h, rfl⟩

theorem step_freeRef (R : Running s) (eq : s.frames = .freeRef c :: k) :
    ∃ s', s.step = some s' ∧ Running s' ∧ s'.work < s.work ∧ Keeps s s' := by
  have S := R.sound
  have S' := S
  rw [State.Sound, eq] at S'
  obtain ⟨h, at_c⟩ := S'.exists_freeRef
  have pos := S'.freeRef_pos at_c
  have mem : c ∈ s.allocated := S'.mem_of_header at_c
  have step_eq : s.step = ({ s with frames := k } : State).freeRef c := by simp only [State.step, eq]
  rw [step_eq, freeRef_eq (s := { s with frames := k }) at_c pos]
  refine ⟨_, rfl, ?_⟩
  have less := work_dropped eq at_c
  by_cases last : h.refCount = 1
  · rw [if_neg (not_not_intro last)]
    cases value : h.gcObjType.isValue with
    | true =>
      rw [if_pos rfl]
      change Running ((s.dropped c h k).jsFreeValueRt c) ∧
        ((s.dropped c h k).jsFreeValueRt c).work < _ ∧
          Keeps s ((s.dropped c h k).jsFreeValueRt c)
      have T := sound_dropped S eq at_c (.inl value)
      by_cases sweep : s.gcPhase = .removeCycles
      · -- in a sweep the value is in the list of garbage already
        have stays : (s.dropped c h k).jsFreeValueRt c = s.dropped c h k := by
          have phase : (s.dropped c h k).gcPhase = .removeCycles := sweep
          rw [State.jsFreeValueRt, phase]
        rw [stays]
        refine ⟨⟨T, ?_⟩, by omega, Keeps.dropped at_c⟩
        rcases R.phase with B | ⟨a, b, D⟩ | ⟨a, W⟩
        · exact absurd (B.phase.symm.trans sweep) (by decide)
        · exact absurd (D.phase.symm.trans sweep) (by decide)
        · exact .inr (.inr (W.dropped eq at_c))
      · have work := work_jsFreeValueRt T.distinct (p := c) mem sweep
        refine ⟨⟨sound_waits T mem sweep, ?_⟩, by omega, Keeps.waits at_c⟩
        rcases R.phase with B | ⟨a, b, D⟩ | ⟨a, W⟩
        · exact .inr (.inl ⟨[], k, B.waits S eq at_c value last⟩)
        · obtain ⟨a', D'⟩ := D.waits S eq at_c value last
          exact .inr (.inl ⟨a', b, D'⟩)
        · exact absurd W.phase sweep
    | false =>
      rw [if_neg (by decide)]
      have work := (work_release (s := { s with frames := k }) S.distinct mem at_c
        (g := { h with refCount := h.refCount - 1 }) rfl).1
      have popped : ({ s with frames := k } : State).work + 6 = s.work := by
        simp only [State.work, eq, pending_cons, finishing_cons, Frame.refs, Frame.finishes,
          loops_freeRef, List.nil_append, List.length_append, List.length_singleton,
          State.allocated, State.children]
        omega
      have alone : c ∉ s.handles ∧ ∀ q, c ∉ s.children q := by
        have count := S.counts c h at_c
        rw [eq, count_freeRef, if_pos rfl] at count
        have other : c ∉ refs s.headers s.allocated s.handles k := fun ref => by
          have := List.count_pos_iff.mpr ref
          omega
        exact alone_of_not_ref S other
      refine ⟨⟨?_, ?_⟩, by omega, Keeps.release _ k (fun _ => alone)⟩
      · rw [State.Sound, release_frames]
        exact S'.release_last at_c value last
      · rcases R.phase with B | ⟨a, b, D⟩ | ⟨a, W⟩
        · exact .inl ((B.pop eq).release at_c value rfl)
        · obtain ⟨a', D'⟩ := D.pop eq
          refine .inr (.inl ⟨_, _, D'.release at_c (.inr value) rfl (fun t => ?_)⟩)
          exact absurd (value.symm.trans t) (by decide)
        · obtain ⟨a', W'⟩ := W.pop eq
          exact .inr (.inr ⟨_, W'.release (fun mem => W.not_last S eq at_c mem last)⟩)
  · rw [if_pos last]
    change Running (s.dropped c h k) ∧ (s.dropped c h k).work < _ ∧ Keeps s (s.dropped c h k)
    refine ⟨⟨sound_dropped S eq at_c (.inr last), ?_⟩, by omega, Keeps.dropped at_c⟩
    rcases R.phase with B | ⟨a, b, D⟩ | ⟨a, W⟩
    · exact .inl (B.dropped eq at_c (by omega))
    · obtain ⟨a', D'⟩ := D.dropped eq at_c (by omega)
      exact .inr (.inl ⟨a', b, D'⟩)
    · exact .inr (.inr (W.dropped eq at_c))

theorem sound_freed (S : s.Sound) (eq : s.frames = .finish p :: k) (at_p : s.headers p = some h)
    (zero : h.refCount = 0) : (s.freed p k).Sound := by
  have S' := S
  rw [State.Sound, eq] at S'
  have freed := S'.free at_p zero
  rw [← State.allocated_unlink S.distinct] at freed
  exact freed

theorem step_finish (R : Running s) (eq : s.frames = .finish p :: k) :
    ∃ s', s.step = some s' ∧ Running s' ∧ s'.work < s.work ∧ Keeps s s' := by
  have S := R.sound
  have S' := S
  rw [State.Sound, eq] at S'
  obtain ⟨h, at_p, marked⟩ := S'.finish p (by simp [Frame.finishes])
  have lists := State.nodup_lists S.distinct
  by_cases cycle : h.gcObjType.isValue ∧ s.gcPhase = .removeCycles ∧ h.refCount ≠ 0
  · refine ⟨s.kept p k, by simp [State.step, eq, State.finish, at_p, cycle, State.kept], ?_, ?_, ?_⟩
    · obtain ⟨value, sweep, -⟩ := cycle
      refine ⟨(S'.keep at_p value).of_perm (perm_kept S at_p k), ?_⟩
      rcases R.phase with B | ⟨a, b, D⟩ | ⟨a, W⟩
      · exact absurd (B.phase.symm.trans sweep) (by decide)
      · exact absurd (D.phase.symm.trans sweep) (by decide)
      · exact .inr (.inr (W.kept S eq at_p))
    · have := work_kept S eq at_p
      omega
    · rcases R.phase with B | ⟨a, b, D⟩ | ⟨a, W⟩
      · exact absurd (B.phase.symm.trans cycle.2.1) (by decide)
      · exact absurd (D.phase.symm.trans cycle.2.1) (by decide)
      · exact Keeps.kept W.phase (W.finish_away S eq at_p)
  · have step_eq : s.step = some (s.freed p k) := by
      simp only [State.step, eq, State.finish, at_p, if_neg cycle, State.freed]
    refine ⟨s.freed p k, step_eq, ?_, ?_, ?_⟩
    · rcases R.phase with B | ⟨a, b, D⟩ | ⟨a, W⟩
      · exact ⟨sound_freed S eq at_p (B.finish_zero S eq at_p), .inl (B.freed eq)⟩
      · obtain ⟨a', D'⟩ := D.freed lists.2.1 eq
        exact ⟨sound_freed S eq at_p (D.finish_zero S eq at_p), .inr (.inl ⟨a', b, D'⟩)⟩
      · refine ⟨sound_freed S eq at_p ?_, .inr (.inr (W.freed (W.finish_away S eq at_p) eq))⟩
        cases value : h.gcObjType.isValue with
        | false => exact finish_other S eq at_p value
        | true => exact by_contra fun ne => cycle ⟨value, W.phase, ne⟩
    · have := work_freed S eq at_p
      omega
    · refine Keeps.freed (fun sweep => ?_) (fun h' at_p' => finish_marked S eq at_p')
      rcases R.phase with B | ⟨a, b, D⟩ | ⟨a, W⟩
      · exact absurd (B.phase.symm.trans sweep) (by decide)
      · exact absurd (D.phase.symm.trans sweep) (by decide)
      · exact W.finish_away S eq at_p

theorem step_freeZeroRefcount (R : Running s) (eq : s.frames = .freeZeroRefcount :: k) :
    ∃ s', s.step = some s' ∧ Running s' ∧ s'.work < s.work ∧ Keeps s s' := by
  have S := R.sound
  rcases R.phase with B | ⟨a, b, D⟩ | ⟨a, W⟩
  · exact absurd (B.calls .freeZeroRefcount (by simp [eq])) (by decide)
  · obtain ⟨rfl, -, rfl⟩ := loop_on_top (D.frames.symm.trans eq) rfl
      (fun f mem => D.calls f (List.mem_append_left _ mem))
    cases list : s.gcZeroRefCountList with
    | nil =>
      refine ⟨{ s with gcPhase := .none, frames := b },
        by simp [State.step, eq, State.freeZeroRefcount, list], ⟨?_, .inl ?_⟩, ?_, ?_⟩
      · exact Gc.Sound.of_frames S (by simp [eq, Frame.refs]) (by simp [eq, Frame.finishes])
      · exact ⟨rfl, list, D.tmp, fun f mem => D.calls f mem, D.live⟩
      · simp only [State.work, eq, State.allocated, State.children, pending_cons, finishing_cons,
          Frame.refs, Frame.finishes, loops_freeZeroRefcount, List.nil_append]
        omega
      · exact ⟨rfl, fun _ mem => mem, (Keeps.refl s).header,
          fun phase => absurd (D.phase.symm.trans phase) (by decide),
          fun _ => ⟨by simp, fun _ S => S⟩⟩
    | cons p rest =>
      have mem : p ∈ s.gcZeroRefCountList := by simp [list]
      obtain ⟨h, at_p, value, zero, marked⟩ := D.zero p mem
      have unmarked : h.freeMark = false := by simpa using marked
      have away : p ∉ s.gcObjList := fun live =>
        ((State.nodup_lists S.distinct).2.2.2.1 p live).1 mem
      refine ⟨s.release p h, ?_, ⟨?_, ?_⟩, ?_, Keeps.release h s.frames (fun _ =>
        alone_of_not_ref S (Gc.Sound.not_ref S at_p zero))⟩
      · simp [State.step, eq, State.freeZeroRefcount, list, at_p, zero, State.freeGcObject, value]
      · rw [State.Sound, release_frames]
        exact Gc.Sound.release_value S at_p value unmarked
      · exact .inr (.inl ⟨_, _, D.release at_p (.inl away) rfl (fun _ => rfl)⟩)
      · have := (work_release S.distinct (S.mem_of_header at_p) at_p (g := h) rfl).2
          (List.mem_append_left _ mem) unmarked
        omega
  · obtain ⟨-, other, -⟩ := loop_on_top (W.frames.symm.trans eq) rfl W.calls
    cases other

/-- Of the headers that are not values, only a context refers to one that is not either. -/
theorem ObjType.context_of_mayRef {t t' : ObjType} (notValue : t.isValue = false)
    (notValue' : t'.isValue = false) (ref : t.mayRef t' = true) : t = .jsContext := by
  cases t <;> cases t' <;> simp_all [ObjType.isValue, ObjType.mayRef]

theorem ObjType.not_mayRef_context {t : ObjType} (notValue : t.isValue = false)
    (ref : t.mayRef .jsContext = true) : False := by
  cases t <;> simp_all [ObjType.isValue, ObjType.mayRef]

/-- What is left behind the garbage's own frees are values: whatever refers to a garbage
header that is not one is such a header too, and these do not refer to one another. -/
theorem Sweeping.all_values (W : Sweeping s []) (S : s.Sound) (done : s.tmpObjList = []) :
    ∀ p ∈ s.gcZeroRefCountList, ∃ h, s.headers p = some h ∧ h.gcObjType.isValue = true := by
  have lists := State.nodup_lists S.distinct
  have frames : s.frames = [.gcFreeCycles] := W.frames
  -- a header that is not a value is referred to by one that is not either
  have parent : ∀ p ∈ s.gcZeroRefCountList, ∀ h, s.headers p = some h →
      h.gcObjType.isValue = false → ∃ q ∈ s.gcZeroRefCountList, ∃ hq, s.headers q = some hq ∧
        hq.gcObjType.isValue = false ∧ hq.gcObjType.mayRef h.gcObjType = true := by
    intro p mem h at_p notValue
    have away : p ∉ s.gcObjList := fun live => (lists.2.2.2.1 p live).1 mem
    have pos := S.other p h at_p notValue
    rw [if_neg (by simp [frames, Frame.finishes])] at pos
    have ref := Gc.Sound.referenced S at_p pos.1
    simp only [refs, frames, pending_cons, pending_nil, Frame.refs, List.append_nil,
      List.mem_append, mem_heldBy] at ref
    rcases ref with root | ⟨q, hq, ref⟩
    · exact absurd (W.rooted p root) away
    · obtain ⟨h', at_q⟩ := (S.alloc q).mp hq
      rcases State.mem_allocated.mp hq with live | waits | tmp
      · exact absurd (W.closed q live p ref) away
      · rw [childrenIn_some at_q] at ref
        cases value : h'.gcObjType.isValue with
        | true =>
          rw [S.given q h' at_q (W.zero q waits h' at_q value)] at ref
          cases ref
        | false => exact ⟨q, waits, h', at_q, value, S.typed q h' at_q p ref h at_p⟩
      · simp [done] at tmp
  intro p mem
  obtain ⟨h, at_p⟩ := (S.alloc p).mp (State.mem_allocated.mpr (.inr (.inl mem)))
  refine ⟨h, at_p, ?_⟩
  by_contra notValue
  rw [Bool.not_eq_true] at notValue
  obtain ⟨q, hq, h', at_q, notValue', ref⟩ := parent p mem h at_p notValue
  obtain ⟨r, hr, h'', at_r, notValue'', ref'⟩ := parent q hq h' at_q notValue'
  have context := ObjType.context_of_mayRef notValue' notValue ref
  rw [context] at ref'
  exact ObjType.not_mayRef_context notValue'' ref'

theorem sound_swept (W : Sweeping s []) (S : s.Sound) (done : s.tmpObjList = []) :
    (s.swept []).Sound := by
  have frames : s.frames = [.gcFreeCycles] := W.frames
  have base : Gc.Sound s.headers (s.gcObjList ++ s.gcZeroRefCountList) s.handles [] := by
    have moved := Gc.Sound.of_frames (k := []) S (by simp [frames, Frame.refs])
      (by simp [frames, Frame.finishes])
    rwa [State.allocated, done, List.append_nil] at moved
  have empty : ∀ p ∈ s.gcZeroRefCountList, childrenIn s.headers p = [] := by
    intro p mem
    obtain ⟨h, at_p, value⟩ := W.all_values S done p mem
    rw [childrenIn_some at_p, S.given p h at_p (W.zero p mem h at_p value)]
  have away : ∀ c ∈ refs s.headers (s.gcObjList ++ s.gcZeroRefCountList) s.handles [],
      c ∈ s.gcObjList := by
    intro c ref
    simp only [refs, pending_nil, List.append_nil, heldBy_append, List.mem_append,
      mem_heldBy] at ref
    rcases ref with root | ⟨q, hq, ref⟩ | ⟨q, hq, ref⟩
    · exact W.rooted c root
    · exact W.closed q hq c ref
    · rw [empty q hq] at ref
      cases ref
  have swept := base.free_all away empty
  have list : (s.swept []).allocated = s.gcObjList := by
    simp [State.swept, State.allocated, done]
  rw [State.Sound, list]
  exact swept

theorem between_swept (W : Sweeping s []) (S : s.Sound) (done : s.tmpObjList = []) :
    Between (s.swept []) where
  phase := rfl
  zero := rfl
  tmp := done
  calls := fun f mem => by simp [State.swept] at mem
  live := by
    intro p mem h at_p value
    have old : s.headers p = some h := by
      have away := ((State.nodup_lists S.distinct).2.2.2.1 p mem).1
      simpa [State.swept, away] using at_p
    refine ⟨?_, W.unmarked p mem h old⟩
    apply Gc.Sound.refCount_pos S old
    rcases W.supported p mem with root | ⟨q, hq, ref⟩
    · exact Gc.Sound.handle_ref S root
    · exact Gc.Sound.child_ref S (State.mem_allocated.mpr (.inl hq)) ref

theorem work_swept (S : s.Sound) (frames : s.frames = [.gcFreeCycles])
    (done : s.tmpObjList = []) : (s.swept []).work < s.work := by
  have kids : heldBy (s.swept []).children s.gcObjList = heldBy s.children s.gcObjList := by
    apply heldBy_congr
    intro p mem
    have away := ((State.nodup_lists S.distinct).2.2.2.1 p mem).1
    simp [State.children, childrenIn, State.swept, away]
  have list : (s.swept []).allocated = s.gcObjList := by
    simp [State.swept, State.allocated, done]
  have more : (heldBy s.children s.gcObjList).length ≤ (heldBy s.children s.allocated).length := by
    simp [State.allocated]
  have empty : (s.swept []).gcZeroRefCountList ++ (s.swept []).tmpObjList = [] := by
    simp [State.swept, done]
  have none_left : (s.swept []).tmpObjList.length = 0 := by simp [State.swept, done]
  have top : (s.swept []).frames = [] := rfl
  simp only [State.work, list, kids, empty, none_left, top, frames, pending_cons, pending_nil,
    finishing_cons, finishing_nil, Frame.refs, Frame.finishes, loops_gcFreeCycles,
    List.nil_append, List.length_nil, List.countP_nil]
  have bare : loops [] = 0 := rfl
  omega

theorem step_gcFreeCycles (R : Running s) (eq : s.frames = .gcFreeCycles :: k) :
    ∃ s', s.step = some s' ∧ Running s' ∧ s'.work < s.work ∧ Keeps s s' := by
  have S := R.sound
  rcases R.phase with B | ⟨a, b, D⟩ | ⟨a, W⟩
  · exact absurd (B.calls .gcFreeCycles (by simp [eq])) (by decide)
  · obtain ⟨-, other, -⟩ := loop_on_top (D.frames.symm.trans eq) rfl
      (fun f mem => D.calls f (List.mem_append_left _ mem))
    cases other
  obtain ⟨rfl, -, rfl⟩ := loop_on_top (W.frames.symm.trans eq) rfl W.calls
  cases list : s.tmpObjList with
  | nil =>
    have values : s.gcZeroRefCountList.all s.isValueAt = true := by
      rw [List.all_eq_true]
      intro p mem
      obtain ⟨h, at_p, value⟩ := W.all_values S list p mem
      simp [State.isValueAt, at_p, value]
    refine ⟨s.swept [], by simp only [State.step, eq, State.gcFreeCycles, list, values,
      State.swept, if_true], ⟨sound_swept W S list, .inl (between_swept W S list)⟩, ?_⟩
    exact ⟨work_swept S eq list, Keeps.swept W.phase⟩
  | cons p rest =>
    have mem : p ∈ s.tmpObjList := by simp [list]
    obtain ⟨h, at_p⟩ := (S.alloc p).mp (State.mem_allocated.mpr (.inr (.inr mem)))
    have unmarked : h.freeMark = false := by simpa using W.tmp p mem h at_p
    cases value : h.gcObjType.isValue with
    | true =>
      have away : p ∉ s.gcObjList := fun live =>
        ((State.nodup_lists S.distinct).2.2.2.1 p live).2 mem
      refine ⟨s.release p h, ?_, ⟨?_, .inr (.inr ⟨_, W.release away⟩)⟩, ?_,
        Keeps.release h s.frames (fun phase => absurd W.phase phase)⟩
      · simp [State.step, eq, State.gcFreeCycles, list, at_p, State.freeGcObject, value]
      · rw [State.Sound, release_frames]
        exact Gc.Sound.release_value S at_p value unmarked
      · have := (work_release S.distinct (S.mem_of_header at_p) at_p (g := h) rfl).2
          (List.mem_append_right _ mem) unmarked
        omega
    | false =>
      refine ⟨{ s with
        tmpObjList := rest
        gcZeroRefCountList := s.gcZeroRefCountList ++ [p] }, ?_, ⟨?_, .inr (.inr ⟨[], ?_⟩)⟩, ?_,
        ⟨rfl, fun _ mem => mem, (Keeps.refl s).header, fun phase => ⟨rfl, .inl phase⟩,
          fun phase => absurd W.phase phase⟩⟩
      · simp [State.step, eq, State.gcFreeCycles, list, at_p, value]
      · apply Gc.Sound.of_perm S
        simp [State.allocated, list]
      · refine ⟨W.phase, W.frames, W.calls, W.rooted, W.closed, W.supported, W.unmarked,
          fun q hq => W.tmp q (by rw [list]; exact List.mem_cons_of_mem _ hq), ?_⟩
        intro q hq h' at_q value'
        rcases List.mem_append.mp hq with old | last
        · exact W.zero q old h' at_q value'
        · obtain rfl := List.mem_singleton.mp last
          have same := Option.some.inj (at_q.symm.trans at_p)
          rw [same, value] at value'
          cases value'
      · simp only [State.work, State.allocated, State.children, list, List.append_assoc,
          List.singleton_append, List.length_cons]
        omega

theorem Running.step (R : Running s) (busy : s.frames ≠ []) :
    ∃ s', s.step = some s' ∧ Running s' ∧ s'.work < s.work ∧ Keeps s s' := by
  cases eq : s.frames with
  | nil => exact absurd eq busy
  | cons f k =>
    cases f with
    | freeRef c => exact step_freeRef R eq
    | finish p => exact step_finish R eq
    | freeZeroRefcount => exact step_freeZeroRefcount R eq
    | gcFreeCycles => exact step_gcFreeCycles R eq

/-- The calls that are under way all return. -/
theorem Running.returns (R : Running s) {n : Nat} (enough : s.work ≤ n) :
    ∃ s', s.run n = some s' ∧ Running s' ∧ s'.frames = [] ∧ Keeps s s' := by
  induction n generalizing s with
  | zero =>
    by_cases busy : s.frames = []
    · exact ⟨s, by simp [State.run, busy], R, busy, Keeps.refl s⟩
    · obtain ⟨s', -, -, less, -⟩ := R.step busy
      omega
  | succ n ih =>
    by_cases busy : s.frames = []
    · exact ⟨s, by simp [State.run, busy], R, busy, Keeps.refl s⟩
    · obtain ⟨s₁, next, R₁, less, K⟩ := R.step busy
      obtain ⟨s₂, run, R₂, done, K'⟩ := ih R₁ (by omega)
      refine ⟨s₂, by simp only [State.run, if_neg busy, next, Option.bind_some, run], R₂, done, ?_⟩
      by_cases rest : s₁.frames = []
      · have same : s₂ = s₁ := by
          cases n <;> simpa [State.run, rest] using run.symm
        rwa [same]
      · exact K.trans K' rest

end Gc
