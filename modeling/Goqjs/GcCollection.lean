import Goqjs.GcRuns

/-!
# What is freed, and when

Giving up a reference frees what nothing else keeps, cycles excepted; the collector frees
exactly what no handle reaches; and a runtime can be closed when no handle is left.
-/

namespace Gc

open ReferenceGraph

variable {s : State} {p c : Address} {h : Header}

namespace Exact

theorem child_alloc (E : Exact s) (ref : c ∈ s.children p) : p ∈ s.gcObjList ∧ c ∈ s.gcObjList := by
  cases at_p : s.headers p with
  | none => simp [State.children, childrenIn, at_p] at ref
  | some h =>
    have mem := (E.balanced.alloc p).mpr ⟨h, at_p⟩
    exact ⟨mem, E.balanced.known c (List.mem_append_right _ (mem_heldBy.mpr ⟨p, mem, ref⟩))⟩

theorem handle_alloc (E : Exact s) (root : c ∈ s.handles) : c ∈ s.gcObjList :=
  E.balanced.known c (List.mem_append_left _ root)

theorem supports (E : Exact s) (mem : p ∈ s.gcObjList) :
    p ∈ s.handles ∨ ∃ q ∈ s.gcObjList, p ∈ s.children q := by
  obtain ⟨h, at_p⟩ := (E.balanced.alloc p).mp mem
  have ⟨count, pos, _⟩ := E.balanced.header p h at_p
  have ref : p ∈ s.handles ++ heldBy (childrenIn s.headers) s.gcObjList :=
    List.count_pos_iff.mp (by omega)
  exact (List.mem_append.mp ref).imp_right mem_heldBy.mp

end Exact

theorem init_exact : Exact State.init := by
  refine ⟨rfl, rfl, rfl, rfl, List.nodup_nil, ?_, ?_, ?_, ?_⟩
  · exact fun p => by simp [State.init]
  · exact fun c ref => by simp [State.init] at ref
  · exact fun p h at_p => by cases at_p
  · exact fun p h at_p => by cases at_p

theorem run_exact (ops : List Op) (short : ops.length < 2 ^ 31) :
    ∃ s, State.init.execAll ops = some s ∧ Exact s ∧ s.references.length ≤ intMax := by
  have limit : intMax + 1 = 2 ^ 31 := by decide
  have none_yet : State.init.references.length = 0 := rfl
  obtain ⟨s, run, E, few⟩ := execAll_exact init_exact ops (by omega)
  exact ⟨s, run, E, by omega⟩

/-- Whatever a program does, everything that is asserted holds, no freed header is used, no count
overflows, every call returns, and between the calls the counts are exact. -/
theorem every_run_exact (ops : List Op) (short : ops.length < 2 ^ 31) :
    ∃ s, State.init.execAll ops = some s ∧ Exact s := by
  obtain ⟨s, run, E, -⟩ := run_exact ops short
  exact ⟨s, run, E⟩

/-- Two objects of one shape that refer to each other: counting keeps them, the collector does
not. -/
def cycle : List Op :=
  [.create 0 .jsObject, .create 1 .jsObject, .create 2 .shape, .dup 2, .store 0 2, .store 1 2,
    .dup 1, .store 0 1, .dup 0, .store 1 0, .free 0, .free 1]

theorem every_run_exact_cycle : ∃ s, State.init.execAll cycle = some s ∧ Exact s :=
  every_run_exact cycle (by decide)

example : (State.init.execAll cycle).map (·.gcObjList) = some [0, 1, 2] := by decide

example : (State.init.execAll (cycle ++ [.runGC])).map (·.gcObjList) = some [] := by decide

theorem free_supported (E : Exact s) (mem : c ∈ s.handles) : ∃ s', s.exec (.free c) = some s' ∧
    Exact s' ∧ s'.handles = s.handles.erase c ∧
    (∀ p h', s'.headers p = some h' → ∃ h, s.headers p = some h ∧
      h'.gcObjType = h.gcObjType ∧ h'.children = h.children) ∧
    ∀ p, (∃ h', s'.headers p = some h') ↔
      ∃ B, SupportedBy s.children (s.handles.erase c) B ∧ B p := by
  obtain ⟨s', run, E', K⟩ := exec_free E mem
  have handles : s'.handles = s.handles.erase c := K.handles
  have same : ∀ p h', s'.headers p = some h' → ∃ h, s.headers p = some h ∧
      h'.gcObjType = h.gcObjType ∧ h'.children = h.children := fun p h' at_p =>
    E'.unchanged (s := s.giveUp c) K at_p
  have kids : ∀ q ∈ s'.gcObjList, s'.children q = s.children q := by
    intro q hq
    obtain ⟨h', at_q⟩ := (E'.balanced.alloc q).mp hq
    obtain ⟨h, at_q₀, -, fields⟩ := same q h' at_q
    exact (childrenIn_some at_q).trans (fields.trans (childrenIn_some at_q₀).symm)
  refine ⟨s', run, E', handles, same, fun p => ⟨fun alloc => ?_, ?_⟩⟩
  · refine ⟨fun q => q ∈ s'.gcObjList, fun q hq => ?_, (E'.balanced.alloc p).mpr alloc⟩
    rcases E'.supports hq with root | ⟨r, hr, ref⟩
    · exact .inl (by rwa [← handles])
    · exact .inr ⟨r, hr, by rwa [← kids r hr]⟩
  · rintro ⟨B, supported, inB⟩
    have alloc : ∀ q, B q → ∃ h, s.headers q = some h := by
      intro q hq
      rw [← E.balanced.alloc q]
      rcases supported q hq with root | ⟨r, -, ref⟩
      · exact E.handle_alloc (List.mem_of_mem_erase root)
      · exact (E.child_alloc ref).2
    have start : Supported (s.giveUp c) B := by
      intro q hq
      obtain ⟨h, at_q⟩ := alloc q hq
      exact ⟨⟨h, at_q, (E.balanced.header q h at_q).2.2.2⟩, supported q hq⟩
    have phase : (s.giveUp c).gcPhase ≠ .removeCycles := by
      simp [State.giveUp, E.phase]
    obtain ⟨⟨h', at_p, -⟩, -⟩ := (K.supported phase).2 B start p inB
    exact ⟨h', at_p⟩

/-- What the other handles reach stays. -/
theorem free_keeps_reachable (E : Exact s) (mem : c ∈ s.handles)
    (reach : Reachable s.children (s.handles.erase c) p) :
    ∃ s', s.exec (.free c) = some s' ∧ ∃ h', s'.headers p = some h' := by
  obtain ⟨s', freed, -, -, -, alive⟩ := free_supported E mem
  exact ⟨s', freed, (alive p).mpr ⟨_, reachable_supportedBy _ _, reach⟩⟩

/-- `JS_FreeValue` frees exactly the headers that are in no set whose members are kept by the
other handles and by one another, and leaves the rest as it is. -/
theorem free_exact (ops : List Op) (short : ops.length < 2 ^ 31) (c : Address) : ∃ s, State.init.execAll ops = some s ∧
    (c ∈ s.handles → ∃ s', s.exec (.free c) = some s' ∧ s'.handles = s.handles.erase c ∧
      (∀ p h', s'.headers p = some h' → ∃ h, s.headers p = some h ∧
        h'.gcObjType = h.gcObjType ∧ h'.children = h.children) ∧
      ∀ p, (∃ h', s'.headers p = some h') ↔
        ∃ B, SupportedBy s.children (s.handles.erase c) B ∧ B p) := by
  obtain ⟨s, run, E, -⟩ := run_exact ops short
  refine ⟨s, run, fun mem => ?_⟩
  obtain ⟨s', freed, -, rest⟩ := free_supported E mem
  exact ⟨s', freed, rest⟩

theorem free_exact_cycle : ∃ s s', State.init.execAll (cycle.take 10) = some s ∧
    s.exec (.free 0) = some s' ∧ s'.handles = [1] ∧
      ∀ p, (∃ h', s'.headers p = some h') ↔ ∃ B, SupportedBy s.children [1] B ∧ B p := by
  obtain ⟨s, run, frees⟩ := free_exact (cycle.take 10) (by decide) 0
  have handles : (State.init.execAll (cycle.take 10)).map (·.handles) = some [1, 0] := by decide
  rw [run, Option.map_some, Option.some.injEq] at handles
  rw [handles] at frees
  obtain ⟨s', freed, left, -, alive⟩ := frees (by decide)
  exact ⟨s, s', run, freed, left, alive⟩

/-- What counting leaves behind hangs on a cycle of headers that no handle reaches. -/
theorem leaks_only_cycles (ops : List Op) (short : ops.length < 2 ^ 31) :
    ∃ s, State.init.execAll ops = some s ∧ ∀ p h, s.headers p = some h → ¬ Reachable s.children s.handles p →
      ∃ q, ¬ Reachable s.children s.handles q ∧ OnCycle s.children q ∧
        Relation.ReflTransGen (Edge s.children) q p := by
  classical
  obtain ⟨s, run, E, -⟩ := run_exact ops short
  refine ⟨s, run, fun p h at_p lost => ?_⟩
  let leaked := s.gcObjList.filter fun q => ¬ Reachable s.children s.handles q
  have mem_leaked : ∀ q, q ∈ leaked ↔ q ∈ s.gcObjList ∧ ¬ Reachable s.children s.handles q := by
    intro q
    simp [leaked]
  have referenced : ∀ q ∈ leaked, ∃ r ∈ leaked, q ∈ s.children r := by
    intro q hq
    obtain ⟨alloc, lost⟩ := (mem_leaked q).mp hq
    rcases E.supports alloc with root | ⟨r, hr, ref⟩
    · exact absurd (.root root) lost
    · exact ⟨r, (mem_leaked r).mpr ⟨hr, fun reach => lost (.child reach ref)⟩, ref⟩
  have start : p ∈ leaked := (mem_leaked p).mpr ⟨(E.balanced.alloc p).mpr ⟨h, at_p⟩, lost⟩
  obtain ⟨q, hq, cycle, path⟩ := reached_from_cycle leaked referenced start
  exact ⟨q, ((mem_leaked q).mp hq).2, cycle, path⟩

theorem leaks_only_cycles_cycle : ∃ s q, State.init.execAll cycle = some s ∧
    ¬ Reachable s.children s.handles q ∧ OnCycle s.children q := by
  obtain ⟨s, run, leaks⟩ := leaks_only_cycles cycle (by decide)
  have handles : (State.init.execAll cycle).map (·.handles) = some [] := by decide
  have kept : ((State.init.execAll cycle).bind (·.headers 0)).isSome = true := by decide
  rw [run, Option.map_some, Option.some.injEq] at handles
  rw [run, Option.bind_some, Option.isSome_iff_exists] at kept
  obtain ⟨h, at_0⟩ := kept
  have lost : ¬ Reachable s.children s.handles 0 := fun reach =>
    reach.within (S := fun _ => False) (fun r root => by simp [handles] at root)
      (fun _ absurd => absurd.elim)
  obtain ⟨q, unreached, on_cycle, -⟩ := leaks 0 h at_0 lost
  exact ⟨s, q, run, unreached, on_cycle⟩

theorem runGC_reachable (E : Exact s) (F : Fits s) : ∃ s', s.exec .runGC = some s' ∧ Exact s' ∧
    s'.handles = s.handles ∧
    (∀ p, (∃ h', s'.headers p = some h') ↔ Reachable s.children s.handles p) ∧
    ∀ p h', s'.headers p = some h' → ∃ h, s.headers p = some h ∧
      h'.gcObjType = h.gcObjType ∧ h'.children = h.children := by
  obtain ⟨t, s', run, E', S, K, list⟩ := exec_runGC E F
  refine ⟨s', run, E', K.handles.trans S.rest.1, fun p => ?_, fun p h' => S.unchanged E' K⟩
  rw [← E'.balanced.alloc p, list]
  exact S.live p

/-- `JS_RunGC` frees exactly what no handle reaches, cycles or not; what stays has its type,
its references in their order, and an exact count. -/
theorem runGC_exact (ops : List Op) (short : ops.length < 2 ^ 31) : ∃ s s',
    State.init.execAll ops = some s ∧ s.exec .runGC = some s' ∧ Exact s' ∧
    s'.handles = s.handles ∧
    (∀ p, (∃ h', s'.headers p = some h') ↔ Reachable s.children s.handles p) ∧
    ∀ p h', s'.headers p = some h' → ∃ h, s.headers p = some h ∧
      h'.gcObjType = h.gcObjType ∧ h'.children = h.children := by
  obtain ⟨s, run, E, few⟩ := run_exact ops short
  obtain ⟨s', collected, rest⟩ := runGC_reachable E (E.fits few)
  exact ⟨s, s', run, collected, rest⟩

theorem runGC_exact_cycle : ∃ s s', State.init.execAll cycle = some s ∧
    s.exec .runGC = some s' ∧ Exact s' ∧ s'.handles = s.handles ∧
    (∀ p, (∃ h', s'.headers p = some h') ↔ Reachable s.children s.handles p) ∧
    ∀ p h', s'.headers p = some h' → ∃ h, s.headers p = some h ∧
      h'.gcObjType = h.gcObjType ∧ h'.children = h.children :=
  runGC_exact cycle (by decide)

/-- `JS_FreeRuntime`, as far as the heap goes: the exception and the arguments of the queued
jobs, which the runtime holds itself, and a run of the collector. What is asserted of
`gc_obj_list` behind it is not compiled (`-DNDEBUG`). -/
def State.freeRuntime (s : State) (held : List Address) : Option State :=
  (held.foldlM (fun (s : State) c => s.exec (.free c)) s).bind fun s => s.exec .runGC

theorem frees_held (E : Exact s) {held : List Address} (sub : held.Subperm s.handles) :
    ∃ s', held.foldlM (fun (s : State) c => s.exec (.free c)) s = some s' ∧ Exact s' ∧
      s'.references.length ≤ s.references.length ∧ (held ++ s'.handles).Perm s.handles := by
  induction held generalizing s with
  | nil => exact ⟨s, rfl, E, Nat.le_refl _, .refl _⟩
  | cons c held ih =>
    have mem : c ∈ s.handles := sub.subset (by simp)
    obtain ⟨s₁, freed, E₁, handles, same, -⟩ := free_supported E mem
    have fewer := E.references_le E₁ (by rw [handles]; exact List.length_erase_le) same
    have sub₁ : held.Subperm s₁.handles := by
      rw [handles]
      have := sub.erase c
      rwa [List.erase_cons_head] at this
    obtain ⟨s₂, rest, E₂, fewer', perm⟩ := ih E₁ sub₁
    refine ⟨s₂, by rw [List.foldlM_cons, freed]; exact rest, E₂, fewer'.trans fewer, ?_⟩
    rw [handles] at perm
    exact (perm.cons c).trans (List.perm_cons_erase mem).symm

theorem freeRuntime_leaves (E : Exact s) (few : s.references.length ≤ intMax)
    {held : List Address} (sub : held.Subperm s.handles) :
    ∃ s', s.freeRuntime held = some s' ∧ (s'.gcObjList = [] ↔ held.Perm s.handles) := by
  obtain ⟨s₁, freed, E₁, fewer, perm⟩ := frees_held E sub
  obtain ⟨s₂, collected, E₂, -, alive, -⟩ := runGC_reachable E₁ (E₁.fits (by omega))
  have empty_iff : s₂.gcObjList = [] ↔ s₁.handles = [] := by
    simp only [List.eq_nil_iff_forall_not_mem, E₂.balanced.alloc, alive]
    constructor
    · exact fun none p root => none p (.root root)
    · exact fun none p reach =>
        reach.within (S := fun _ => False) (fun r root => none r root) (fun _ absurd => absurd.elim)
  have all_given : s₁.handles = [] ↔ held.Perm s.handles := by
    constructor
    · intro empty
      rwa [empty, List.append_nil] at perm
    · intro same
      have lengths := perm.length_eq
      rw [List.length_append, same.length_eq] at lengths
      exact List.eq_nil_of_length_eq_zero (by omega)
  refine ⟨s₂, ?_, empty_iff.trans all_given⟩
  rw [State.freeRuntime, freed, Option.bind_some, collected]

/-- `Runtime.Close` finds `gc_obj_list` empty, as it takes it to be, exactly when every reference
but those of the runtime itself has been given up before. -/
theorem close_exact (ops : List Op) (short : ops.length < 2 ^ 31) (held : List Address) :
    ∃ s, State.init.execAll ops = some s ∧ (held.Subperm s.handles →
      ∃ s', s.freeRuntime held = some s' ∧ (s'.gcObjList = [] ↔ held.Perm s.handles)) := by
  obtain ⟨s, run, E, few⟩ := run_exact ops short
  exact ⟨s, run, freeRuntime_leaves E few⟩

theorem close_exact_cycle : ∃ s s', State.init.execAll (cycle.take 10) = some s ∧
    s.freeRuntime [0] = some s' ∧ s'.gcObjList ≠ [] := by
  obtain ⟨s, run, closes⟩ := close_exact (cycle.take 10) (by decide) [0]
  have handles : (State.init.execAll (cycle.take 10)).map (·.handles) = some [1, 0] := by decide
  rw [run, Option.map_some, Option.some.injEq] at handles
  rw [handles] at closes
  obtain ⟨s', freed, empty_iff⟩ := closes (by decide)
  exact ⟨s, s', run, freed, fun empty => absurd (empty_iff.mp empty) (by decide)⟩

end Gc
