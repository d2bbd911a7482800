import Goqjs.GcTracing

/-!
# Runs of the engine's heap

What a program does to the heap, call after call: it makes headers, copies and gives up
references, moves them into fields and out of them, and runs the collector. A call goes on
until the frees that it starts are done.
-/

namespace Gc

open ReferenceGraph

/-- One call into the engine. `dup` is `JS_DupValue` and its like, `free` is `JS_FreeValue`
and its like; `store` hands a reference over to a field, and `take` does the reverse. -/
inductive Op where
  | create (p : Address) (t : ObjType)
  | dup (c : Address)
  | free (c : Address)
  | store (p c : Address)
  | take (p c : Address)
  | runGC
  deriving DecidableEq

namespace State

def init : State := ⟨fun _ => none, [], [], [], .none, [], []⟩

def mayRefAt (s : State) (p c : Address) : Bool :=
  match s.headers p, s.headers c with
  | some h, some h' => h.gcObjType.mayRef h'.gcObjType
  | _, _ => false

/-- A program works with the references it has, and memory that is handed out is unused. -/
def allows (s : State) : Op → Bool
  | .create p _ => (s.headers p).isNone
  | .dup c => (s.headers c).isSome
  | .free c => decide (c ∈ s.handles)
  | .store p c => decide (c ∈ s.handles) && s.mayRefAt p c
  | .take p c => decide (c ∈ s.children p)
  | .runGC => true

/-- `add_gc_object` for a new header, which its maker holds. -/
def addGcObject (s : State) (p : Address) (t : ObjType) : State :=
  { s.put p ⟨t, 1, false, false, []⟩ with
    gcObjList := s.gcObjList ++ [p]
    handles := p :: s.handles }

def dup (s : State) (c : Address) : Option State :=
  match s.headers c with
  | none => none
  | some h => h.incref.map fun h => { s.put c h with handles := c :: s.handles }

def giveUp (s : State) (c : Address) : State :=
  { s with handles := s.handles.erase c, frames := .freeRef c :: s.frames }

def store (s : State) (p c : Address) : Option State :=
  match s.headers p with
  | none => none
  | some h =>
    some { s.put p { h with children := h.children ++ [c] } with handles := s.handles.erase c }

def take (s : State) (p c : Address) : Option State :=
  match s.headers p with
  | none => none
  | some h =>
    some { s.put p { h with children := h.children.erase c } with handles := c :: s.handles }

def exec (s : State) : Op → Option State
  | .create p t => some (s.addGcObject p t)
  | .dup c => s.dup c
  | .free c => (s.giveUp c).run (s.giveUp c).work
  | .store p c => s.store p c
  | .take p c => s.take p c
  | .runGC => s.runGC.bind fun s => s.run s.work

/-- The calls of a program, one after the other; one that it cannot make is left out. -/
def execAll (s : State) : List Op → Option State
  | [] => some s
  | op :: ops => (if s.allows op then s.exec op else some s).bind fun s => s.execAll ops

end State

variable {s : State} {H : Address → Option Header} {L R : List Address} {p c : Address}
  {h : Header}

/-- All the references that there are. -/
def State.references (s : State) : List Address :=
  s.handles ++ heldBy s.children s.gcObjList

/-- The live list has all headers, the counts are those of the references, and no reference
leads to a freed header. -/
structure Balanced (H : Address → Option Header) (L R : List Address) : Prop where
  distinct : L.Nodup
  alloc : ∀ p, p ∈ L ↔ ∃ h, H p = some h
  known : ∀ c ∈ R ++ heldBy (childrenIn H) L, c ∈ L
  header : ∀ p h, H p = some h →
    h.refCount = (R ++ heldBy (childrenIn H) L).count p ∧ 0 < h.refCount ∧
      h.mark = false ∧ h.freeMark = false
  typed : ∀ p h, H p = some h → ∀ c ∈ h.children, ∀ h', H c = some h' →
    h.gcObjType.mayRef h'.gcObjType = true

/-- The heap when no call is under way. -/
structure Exact (s : State) : Prop where
  frames : s.frames = []
  phase : s.gcPhase = .none
  zero : s.gcZeroRefCountList = []
  tmp : s.tmpObjList = []
  balanced : Balanced s.headers s.gcObjList s.handles

theorem Settled.exact (Q : Settled s) : Exact s where
  frames := Q.frames
  phase := Q.between.phase
  zero := Q.between.zero
  tmp := Q.between.tmp
  balanced := by
    refine ⟨Q.distinct, fun _ => Q.mem_iff, fun _ ref => Q.mem_iff.mpr (Q.known ref), ?_,
      Gc.Sound.typed Q.running.sound⟩
    intro p h at_p
    have ⟨pos, unmarked⟩ := Q.pos_unmarked at_p
    refine ⟨?_, pos, Q.marks p h at_p, unmarked⟩
    rw [Q.count at_p, List.count_append]
    simp [State.children]

theorem Exact.settled (E : Exact s) : Settled s := by
  have B := E.balanced
  have list : s.allocated = s.gcObjList := by simp [State.allocated, E.zero, E.tmp]
  have refs_eq : refs s.headers s.allocated s.handles s.frames =
      s.handles ++ heldBy (childrenIn s.headers) s.gcObjList := by
    simp [refs, E.frames, list]
  refine ⟨⟨?_, .inl ?_⟩, E.frames, fun p h at_p => (B.header p h at_p).2.2.1⟩
  · constructor
    case distinct => rw [list]; exact B.distinct
    case alloc => rw [list]; exact B.alloc
    case counts => rw [refs_eq]; exact fun p h at_p => (B.header p h at_p).1
    case known => rw [refs_eq, list]; exact B.known
    case typed => exact B.typed
    case once => rw [E.frames]; exact List.nodup_nil
    case finish => rw [E.frames]; exact fun p mem => by simp at mem
    case given =>
      intro p h at_p marked
      rw [(B.header p h at_p).2.2.2] at marked
      cases marked
    case other =>
      intro p h at_p _
      obtain ⟨_, pos, _, unmarked⟩ := B.header p h at_p
      rw [if_neg (by simp [E.frames])]
      exact ⟨pos, unmarked⟩
  · refine ⟨E.phase, E.zero, E.tmp, fun f mem => by simp [E.frames] at mem, ?_⟩
    intro p _ h at_p _
    obtain ⟨_, pos, _, unmarked⟩ := B.header p h at_p
    exact ⟨pos, unmarked⟩

/-- No count is greater than the number of all references. -/
theorem Exact.fits (E : Exact s) (few : s.references.length ≤ intMax) : Fits s := by
  intro p h at_p
  have count := (E.balanced.header p h at_p).1
  have most := List.count_le_length (a := p) (l := s.references)
  change h.refCount = s.references.count p at count
  omega

/-- A new header holds nothing. -/
theorem heldBy_create (out : p ∉ L) (t : ObjType) :
    heldBy (childrenIn (Function.update H p (some ⟨t, 1, false, false, []⟩))) (L ++ [p]) =
      heldBy (childrenIn H) L := by
  have same : heldBy (childrenIn (Function.update H p (some ⟨t, 1, false, false, []⟩))) L =
      heldBy (childrenIn H) L :=
    heldBy_congr fun q mem => childrenIn_update_ne (by rintro rfl; exact out mem) _
  simp [same]

/-- A header gets other references, and what it loses is held instead. -/
theorem perm_refield (distinct : L.Nodup) (mem : p ∈ L) (at_p : H p = some h)
    {cs R' : List Address}
    (same : ∀ q, R'.count q + cs.count q = R.count q + h.children.count q) :
    (R' ++ heldBy (childrenIn (Function.update H p (some { h with children := cs }))) L).Perm
      (R ++ heldBy (childrenIn H) L) := by
  rw [List.perm_iff_count]
  intro q
  have change := (heldBy_change (childrenIn H)
    (childrenIn (Function.update H p (some { h with children := cs }))) distinct mem
    (fun q _ ne => childrenIn_update_ne ne _)).count_eq q
  rw [childrenIn_put_self, childrenIn_some at_p] at change
  simp only [List.count_append] at change ⊢
  have := same q
  omega

theorem count_store (mem : c ∈ R) (cs : List Address) (q : Address) :
    (R.erase c).count q + (cs ++ [c]).count q = R.count q + cs.count q := by
  have := (List.perm_cons_erase mem).count_eq q
  rw [List.count_cons] at this
  rw [List.count_append, List.count_singleton]
  omega

theorem count_take {cs : List Address} (mem : c ∈ cs) (R : List Address) (q : Address) :
    (c :: R).count q + (cs.erase c).count q = R.count q + cs.count q := by
  have := (List.perm_cons_erase mem).count_eq q
  rw [List.count_cons] at this
  rw [List.count_cons]
  omega

namespace Balanced

theorem create (B : Balanced H L R) (fresh : H p = none) (t : ObjType) :
    Balanced (Function.update H p (some ⟨t, 1, false, false, []⟩)) (L ++ [p]) (p :: R) := by
  have out : p ∉ L := fun mem => by
    obtain ⟨h, at_p⟩ := (B.alloc p).mp mem
    rw [fresh] at at_p
    cases at_p
  have old : ∀ {q h}, Function.update H p (some ⟨t, 1, false, false, []⟩) q = some h →
      q = p ∧ h = ⟨t, 1, false, false, []⟩ ∨ q ≠ p ∧ H q = some h := by
    intro q h at_q
    by_cases eq : q = p
    · subst eq
      rw [Function.update_self, Option.some.injEq] at at_q
      exact .inl ⟨rfl, at_q.symm⟩
    · rw [Function.update_of_ne eq] at at_q
      exact .inr ⟨eq, at_q⟩
  have held := heldBy_create (H := H) out t
  have not_ref : p ∉ R ++ heldBy (childrenIn H) L := fun ref => out (B.known p ref)
  constructor
  case distinct =>
    refine List.nodup_append.mpr ⟨B.distinct, List.nodup_singleton p, fun a ha b hb => ?_⟩
    rintro rfl
    exact out (by rwa [← List.mem_singleton.mp hb])
  case alloc =>
    intro q
    by_cases eq : q = p
    · subst eq
      simp
    · rw [Function.update_of_ne eq, ← B.alloc q]
      simp [eq]
  case known =>
    intro c ref
    rw [held, List.cons_append, List.mem_cons] at ref
    rcases ref with rfl | ref
    · simp
    · exact List.mem_append_left _ (B.known c ref)
  case header =>
    intro q h at_q
    rw [held]
    rcases old at_q with ⟨rfl, rfl⟩ | ⟨ne, at_q⟩
    · refine ⟨?_, Int.one_pos, rfl, rfl⟩
      rw [List.cons_append, List.count_cons_self, List.count_eq_zero.mpr not_ref]
      rfl
    · rw [List.cons_append, List.count_cons_of_ne (Ne.symm ne)]
      exact B.header q h at_q
  case typed =>
    intro q h at_q c ref h' at_c
    rcases old at_q with ⟨rfl, rfl⟩ | ⟨-, at_q⟩
    · cases ref
    · have mem : q ∈ L := (B.alloc q).mpr ⟨h, at_q⟩
      have known : c ∈ L := B.known c (List.mem_append_right _
        (mem_heldBy.mpr ⟨q, mem, by rwa [childrenIn_some at_q]⟩))
      rcases old at_c with ⟨rfl, -⟩ | ⟨-, at_c⟩
      · exact absurd known out
      · exact B.typed q h at_q c ref h' at_c

theorem dup (B : Balanced H L R) (at_c : H c = some h) :
    Balanced (Function.update H c (some { h with refCount := h.refCount + 1 })) L (c :: R) := by
  have kids := childrenIn_recount (g := { h with refCount := h.refCount + 1 }) at_c rfl
  have mem : c ∈ L := (B.alloc c).mpr ⟨h, at_c⟩
  constructor
  case distinct => exact B.distinct
  case alloc =>
    intro q
    rw [B.alloc q]
    by_cases eq : q = c
    · subst eq
      simp [at_c]
    · rw [Function.update_of_ne eq]
  case known =>
    intro d ref
    rw [kids, List.cons_append, List.mem_cons] at ref
    rcases ref with rfl | ref
    · exact mem
    · exact B.known d ref
  case header =>
    intro q hq at_q
    obtain ⟨h₀, at_q', rfl⟩ := of_recount at_c at_q
    have ⟨count, pos, rest⟩ := B.header q h₀ at_q'
    rw [kids, List.cons_append]
    by_cases eq : q = c
    · subst eq
      rw [at_c, Option.some.injEq] at at_q'
      subst at_q'
      refine ⟨?_, ?_, rest⟩
      · rw [if_pos rfl, List.count_cons_self]
        simp only [count]
        omega
      · rw [if_pos rfl]
        simp only
        omega
    · rw [if_neg eq, List.count_cons_of_ne (Ne.symm eq)]
      exact ⟨count, pos, rest⟩
  case typed =>
    intro q hq at_q d ref h' at_d
    obtain ⟨h₀, at_q', rfl⟩ := of_recount at_c at_q
    obtain ⟨h₁, at_d', rfl⟩ := of_recount at_c at_d
    exact B.typed q h₀ at_q' d ref h₁ at_d'

/-- References move between the handles and the fields of a header. -/
theorem refield (B : Balanced H L R) (at_p : H p = some h) {cs R' : List Address}
    (same : ∀ q, R'.count q + cs.count q = R.count q + h.children.count q)
    (typed : ∀ c ∈ cs, ∀ h', H c = some h' → h.gcObjType.mayRef h'.gcObjType = true) :
    Balanced (Function.update H p (some { h with children := cs })) L R' := by
  have mem : p ∈ L := (B.alloc p).mpr ⟨h, at_p⟩
  have old : ∀ {q hq}, Function.update H p (some { h with children := cs }) q = some hq →
      ∃ h₀, H q = some h₀ ∧ hq = { h₀ with children := if q = p then cs else h₀.children } := by
    intro q hq at_q
    by_cases eq : q = p
    · subst eq
      rw [Function.update_self, Option.some.injEq] at at_q
      exact ⟨h, at_p, by rw [if_pos rfl, ← at_q]⟩
    · rw [Function.update_of_ne eq] at at_q
      exact ⟨hq, at_q, by rw [if_neg eq]⟩
  have count := fun q => (perm_refield B.distinct mem at_p same).count_eq q
  constructor
  case distinct => exact B.distinct
  case alloc =>
    intro q
    rw [B.alloc q]
    by_cases eq : q = p
    · subst eq
      simp [at_p]
    · rw [Function.update_of_ne eq]
  case known =>
    intro c ref
    rw [← List.count_pos_iff, count, List.count_pos_iff] at ref
    exact B.known c ref
  case header =>
    intro q hq at_q
    obtain ⟨h₀, at_q', rfl⟩ := old at_q
    rw [count]
    exact B.header q h₀ at_q'
  case typed =>
    intro q hq at_q c ref h' at_c
    obtain ⟨h₀, at_q', rfl⟩ := old at_q
    obtain ⟨h₁, at_c', rfl⟩ := old at_c
    by_cases eq : q = p
    · subst eq
      rw [at_p, Option.some.injEq] at at_q'
      subst at_q'
      simp only [if_pos] at ref
      exact typed c ref h₁ at_c'
    · simp only [if_neg eq] at ref
      exact B.typed q h₀ at_q' c ref h₁ at_c'

theorem store (B : Balanced H L R) (at_p : H p = some h) (mem : c ∈ R)
    (typed : ∀ h', H c = some h' → h.gcObjType.mayRef h'.gcObjType = true) :
    Balanced (Function.update H p (some { h with children := h.children ++ [c] })) L
      (R.erase c) := by
  refine B.refield at_p (count_store mem h.children) ?_
  intro d ref h' at_d
  rcases List.mem_append.mp ref with old | new
  · exact B.typed p h at_p d old h' at_d
  · rw [List.mem_singleton.mp new] at at_d
    exact typed h' at_d

theorem take (B : Balanced H L R) (at_p : H p = some h) (mem : c ∈ h.children) :
    Balanced (Function.update H p (some { h with children := h.children.erase c })) L
      (c :: R) := by
  refine B.refield at_p (count_take mem R) ?_
  intro d ref h' at_d
  exact B.typed p h at_p d (List.mem_of_mem_erase ref) h' at_d

end Balanced

/-- A reference that is given up is still counted until the call has taken it. -/
theorem running_giveUp (E : Exact s) (mem : c ∈ s.handles) : Running (s.giveUp c) := by
  have S := E.settled.running.sound
  have perm : (refs s.headers s.allocated (s.handles.erase c) [.freeRef c]).Perm
      (refs s.headers s.allocated s.handles s.frames) := by
    rw [E.frames]
    simp only [refs, pending_cons, pending_nil, Frame.refs, List.append_nil]
    refine List.Perm.append_right _ ?_
    exact (List.perm_append_singleton c _).trans (List.perm_cons_erase mem).symm
  have frames : (s.giveUp c).frames = [.freeRef c] := by simp [State.giveUp, E.frames]
  have none_finish : finishing (s.giveUp c).frames = finishing s.frames := by
    simp [frames, E.frames, Frame.finishes]
  refine ⟨?_, .inl ?_⟩
  · change Gc.Sound s.headers s.allocated (s.handles.erase c) (s.giveUp c).frames
    constructor
    case counts =>
      intro p h at_p
      rw [frames, perm.count_eq]
      exact Gc.Sound.counts S p h at_p
    case known =>
      intro d ref
      rw [frames, perm.mem_iff] at ref
      exact Gc.Sound.known S d ref
    case once => rw [none_finish]; exact Gc.Sound.once S
    case finish => rw [none_finish]; exact Gc.Sound.finish S
    case other => rw [none_finish]; exact Gc.Sound.other S
    all_goals first
      | exact Gc.Sound.distinct S | exact Gc.Sound.alloc S | exact Gc.Sound.typed S
      | exact Gc.Sound.given S
  · have B := E.settled.between
    refine ⟨B.phase, B.zero, B.tmp, fun f mem => ?_, B.live⟩
    rw [frames, List.mem_singleton] at mem
    rw [mem]
    rfl

/-- The marks that are set when a sweep begins are those of the garbage. -/
theorem settled_of_keeps {s' : State} (R : Running s') (done : s'.frames = [])
    (K : Keeps s s') (marks : ∀ p ∈ s.gcObjList, ∀ h, s.headers p = some h → h.mark = false) :
    Settled s' := by
  refine ⟨R, done, fun p h at_p => ?_⟩
  have between : Between s' := by
    rcases R.phase with B | ⟨a, b, D⟩ | ⟨a, W⟩
    · exact B
    · have := D.frames.symm.trans done
      simp at this
    · have := W.frames.symm.trans done
      simp at this
  have mem : p ∈ s'.gcObjList := by
    have := R.sound.mem_of_header at_p
    simpa [State.allocated, between.zero, between.tmp] using this
  have unmarked : h.freeMark = false := by
    cases value : h.gcObjType.isValue with
    | true => exact (between.live p mem h at_p value).2
    | false =>
      have := Gc.Sound.other R.sound p h at_p value
      rw [if_neg (by simp [done])] at this
      exact this.2
  obtain ⟨h₀, at_p₀, -, -, -, mark⟩ := K.header p h at_p unmarked
  rw [mark]
  exact marks p (K.live p mem) h₀ at_p₀

theorem exec_free (E : Exact s) (mem : c ∈ s.handles) :
    ∃ s', s.exec (.free c) = some s' ∧ Exact s' ∧ Keeps (s.giveUp c) s' := by
  obtain ⟨s', run, R, done, K⟩ := (running_giveUp E mem).returns (Nat.le_refl _)
  refine ⟨s', run, ?_, K⟩
  exact (settled_of_keeps R done K (fun p _ h at_p => (E.balanced.header p h at_p).2.2.1)).exact

/-- Behind the passes the sweep has what it needs. -/
theorem running_sweep {t : State} (E : Exact s) (S : Scanned s t) :
    Running { t with gcPhase := .removeCycles, frames := .gcFreeCycles :: t.frames } := by
  have Q := E.settled
  have frames : t.frames = [] := S.rest.2.1.trans E.frames
  have kids : t.children = s.children := by
    funext p
    cases before : s.headers p with
    | none => simp [State.children, childrenIn, before, S.absent p before]
    | some h =>
      obtain ⟨m, now, -⟩ := S.header p h before
      simp [State.children, childrenIn, before, now]
  have old : ∀ p h', t.headers p = some h' → h'.freeMark = false := by
    intro p h' at_p
    cases before : s.headers p with
    | none => simp [S.absent p before] at at_p
    | some h =>
      obtain ⟨m, now, -⟩ := S.header p h before
      have same := Option.some.inj (at_p.symm.trans now)
      subst same
      exact (Q.pos_unmarked before).2
  refine ⟨?_, .inr (.inr ⟨[], ?_⟩)⟩
  · have list : s.allocated.Perm (t.gcObjList ++ [] ++ t.tmpObjList) := by
      rw [Q.allocated, List.append_nil]
      exact S.lists.symm
    have base := Gc.Sound.of_marks Q.running.sound
      (fun p h at_p => (S.header p h at_p).imp fun m now => now.1) S.absent
    rw [← S.zero] at list
    have moved := base.of_perm list
    rw [← S.rest.1] at moved
    exact moved.of_frames (by simp [frames, E.frames, Frame.refs])
      (by simp [frames, E.frames, Frame.finishes])
  · refine ⟨rfl, by simp [frames], by simp, ?_, ?_, ?_, fun p _ => old p, ?_, ?_⟩
    · intro p root
      exact (S.live p).mpr (.root (by rwa [← S.rest.1]))
    · intro p mem c ref
      exact (S.live c).mpr (.child ((S.live p).mp mem) (by rwa [← kids]))
    · intro p mem
      cases (S.live p).mp mem with
      | root root => exact .inl (S.rest.1.symm ▸ root)
      | child parent ref => exact .inr ⟨_, (S.live _).mpr parent, kids.symm ▸ ref⟩
    · intro p _ h' at_p marked
      rw [old p h' at_p] at marked
      cases marked
    · intro p mem
      simp [S.zero] at mem

theorem exec_runGC (E : Exact s) (F : Fits s) : ∃ t s', s.exec .runGC = some s' ∧ Exact s' ∧ Scanned s t ∧
    Keeps { t with gcPhase := .removeCycles, frames := .gcFreeCycles :: t.frames } s' ∧
      s'.gcObjList = t.gcObjList := by
  obtain ⟨t₁, t, decref, scan, S⟩ := scanned E.settled F
  obtain ⟨s', run, R, done, K⟩ := (running_sweep E S).returns (Nat.le_refl _)
  refine ⟨t, s', ?_, ?_, S, K, (K.sweep rfl).1⟩
  · simp only [State.exec, State.runGC, decref, scan, Option.bind_some]
    exact run
  · refine (settled_of_keeps R done K fun p mem h at_p => ?_).exact
    cases before : s.headers p with
    | none => exact absurd at_p (by simp [S.absent p before])
    | some h₀ =>
      obtain ⟨m, now, mark⟩ := S.header p h₀ before
      have same := Option.some.inj (at_p.symm.trans now)
      subst same
      exact mark mem

/-- What a header is behind a call, where the call kept it. -/
theorem Exact.unchanged {s' : State} (E : Exact s') (K : Keeps s s') (at_p : s'.headers p = some h) :
    ∃ h₀, s.headers p = some h₀ ∧ h.gcObjType = h₀.gcObjType ∧ h.children = h₀.children := by
  have unmarked := (E.balanced.header p h at_p).2.2.2
  obtain ⟨h₀, at_p₀, -, type, kids, -⟩ := K.header p h at_p unmarked
  exact ⟨h₀, at_p₀, type, kids⟩

/-- The collector leaves the references of what it keeps alone. -/
theorem Scanned.unchanged {t s' : State} (S : Scanned s t) (E' : Exact s')
    (K : Keeps { t with gcPhase := .removeCycles, frames := .gcFreeCycles :: t.frames } s')
    (at_p : s'.headers p = some h) : ∃ h₀, s.headers p = some h₀ ∧
      h.gcObjType = h₀.gcObjType ∧ h.children = h₀.children := by
  obtain ⟨h₁, at_p₁, type, kids⟩ := E'.unchanged K at_p
  cases before : s.headers p with
  | none => exact absurd at_p₁ (by simp [S.absent p before])
  | some h₀ =>
    obtain ⟨m, now, -⟩ := S.header p h₀ before
    have same := Option.some.inj (at_p₁.symm.trans now)
    subst same
    exact ⟨h₀, rfl, type, kids⟩

/-- Frees make no reference. -/
theorem Exact.references_le {s' : State} (E : Exact s) (E' : Exact s')
    (handles : s'.handles.length ≤ s.handles.length)
    (same : ∀ p h', s'.headers p = some h' → ∃ h, s.headers p = some h ∧
      h'.gcObjType = h.gcObjType ∧ h'.children = h.children) :
    s'.references.length ≤ s.references.length := by
  have sub : s'.gcObjList.Subperm s.gcObjList := by
    refine List.subperm_of_subset E'.balanced.distinct fun p mem => ?_
    obtain ⟨h', at_p⟩ := (E'.balanced.alloc p).mp mem
    obtain ⟨h, at_p₀, -⟩ := same p h' at_p
    exact (E.balanced.alloc p).mpr ⟨h, at_p₀⟩
  have kids : heldBy s'.children s'.gcObjList = heldBy s.children s'.gcObjList := by
    apply heldBy_congr
    intro p mem
    obtain ⟨h', at_p⟩ := (E'.balanced.alloc p).mp mem
    obtain ⟨h, at_p₀, -, fields⟩ := same p h' at_p
    exact (childrenIn_some at_p).trans (fields.trans (childrenIn_some at_p₀).symm)
  obtain ⟨l, perm, sublist⟩ := sub
  have fewer : (heldBy s.children s'.gcObjList).length ≤ (heldBy s.children s.gcObjList).length := by
    rw [← (heldBy_perm s.children perm).length_eq]
    exact (sublist.flatMap s.children).length_le
  rw [State.references, State.references, List.length_append, List.length_append, kids]
  omega

/-- Every call that a program can make returns, and leaves one reference more at most. -/
theorem exec_returns (E : Exact s) {op : Op} (can : s.allows op = true)
    (few : s.references.length < intMax) :
    ∃ s', s.exec op = some s' ∧ Exact s' ∧ s'.references.length ≤ s.references.length + 1 := by
  have F := E.fits (Int.le_of_lt few)
  have B := E.balanced
  cases op with
  | create p t =>
    have fresh : s.headers p = none := by simpa [State.allows] using can
    refine ⟨_, rfl, ⟨E.frames, E.phase, E.zero, E.tmp, B.create fresh t⟩, ?_⟩
    have out : p ∉ s.gcObjList := fun mem => by
      obtain ⟨h, at_p⟩ := (B.alloc p).mp mem
      rw [fresh] at at_p
      cases at_p
    change (p :: s.handles ++ heldBy _ (s.gcObjList ++ [p])).length ≤ _
    rw [State.children, State.addGcObject, State.put, heldBy_create out]
    exact Nat.le_refl _
  | dup c =>
    obtain ⟨h, at_c⟩ := Option.isSome_iff_exists.mp can
    have small : h.refCount < intMax := by
      have count := (B.header c h at_c).1
      have most := List.count_le_length (a := c) (l := s.references)
      change h.refCount = s.references.count c at count
      omega
    have run : s.exec (.dup c) = some { s.put c { h with refCount := h.refCount + 1 } with
        handles := c :: s.handles } := by
      simp only [State.exec, State.dup, at_c, h.incref_of_lt small, Option.map_some]
    refine ⟨_, run, ⟨E.frames, E.phase, E.zero, E.tmp, B.dup at_c⟩, ?_⟩
    have kids := childrenIn_recount (g := { h with refCount := h.refCount + 1 }) at_c rfl
    change (c :: s.handles ++ heldBy (childrenIn _) s.gcObjList).length ≤ _
    rw [State.put, kids]
    exact Nat.le_refl _
  | free c =>
    have mem : c ∈ s.handles := by simpa [State.allows] using can
    obtain ⟨s', run, E', K⟩ := exec_free E mem
    refine ⟨s', run, E', Nat.le_succ_of_le (E.references_le E' ?_ fun p h' =>
      E'.unchanged (s := s.giveUp c) K)⟩
    rw [K.handles]
    exact List.length_erase_le
  | store p c =>
    simp only [State.allows, Bool.and_eq_true, decide_eq_true_eq] at can
    obtain ⟨mem, may⟩ := can
    cases at_p : s.headers p with
    | none => simp [State.mayRefAt, at_p] at may
    | some h =>
      refine ⟨_, by rw [State.exec, State.store, at_p], ?_⟩
      refine ⟨⟨E.frames, E.phase, E.zero, E.tmp, B.store at_p mem fun h' at_c => ?_⟩, ?_⟩
      · simpa [State.mayRefAt, at_p, at_c] using may
      · have perm := perm_refield B.distinct ((B.alloc p).mpr ⟨h, at_p⟩) at_p
          (count_store mem h.children)
        exact Nat.le_succ_of_le perm.length_eq.le
  | take p c =>
    have mem : c ∈ s.children p := by simpa [State.allows] using can
    cases at_p : s.headers p with
    | none => simp [State.children, childrenIn, at_p] at mem
    | some h =>
      rw [State.children, childrenIn_some at_p] at mem
      refine ⟨_, by rw [State.exec, State.take, at_p], ?_⟩
      refine ⟨⟨E.frames, E.phase, E.zero, E.tmp, B.take at_p mem⟩, ?_⟩
      have perm := perm_refield B.distinct ((B.alloc p).mpr ⟨h, at_p⟩) at_p
        (count_take mem s.handles)
      exact Nat.le_succ_of_le perm.length_eq.le
  | runGC =>
    obtain ⟨t, s', run, E', S, K, -⟩ := exec_runGC E F
    refine ⟨s', run, E', Nat.le_succ_of_le (E.references_le E' ?_ fun p h' => S.unchanged E' K)⟩
    rw [K.handles]
    exact (congrArg List.length S.rest.1).le

/-- A run leaves no more references than it has calls, and its counts are exact as long as these
are fewer than an `int` can count. -/
theorem execAll_exact (E : Exact s) (ops : List Op)
    (few : (s.references.length : Int) + ops.length ≤ intMax) :
    ∃ s', s.execAll ops = some s' ∧ Exact s' ∧
      s'.references.length ≤ s.references.length + ops.length := by
  induction ops generalizing s with
  | nil => exact ⟨s, rfl, E, Nat.le_refl _⟩
  | cons op ops ih =>
    rw [List.length_cons] at few ⊢
    by_cases can : s.allows op = true
    · obtain ⟨s₁, next, E₁, more⟩ := exec_returns E can (by omega)
      obtain ⟨s₂, rest, E₂, total⟩ := ih E₁ (by omega)
      refine ⟨s₂, ?_, E₂, by omega⟩
      simp only [State.execAll, can, if_true, next, Option.bind_some, rest]
    · obtain ⟨s₂, rest, E₂, total⟩ := ih E (by omega)
      refine ⟨s₂, ?_, E₂, by omega⟩
      simp only [State.execAll, can, if_false, Option.bind_some, rest, Bool.false_eq_true]

end Gc
