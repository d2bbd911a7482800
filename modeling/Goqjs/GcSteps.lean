import Goqjs.GcFreeing

/-!
# A turn of the code that frees

Frees are under way in one of three phases. What a turn needs of the heap depends on the
phase, and every turn keeps it: it never fails, and there is less to do behind it.
-/

namespace Gc

open ReferenceGraph

variable {s : State} {p q c : Address} {h h' : Header} {a b k : List Frame} {f : Frame}

/-- A frame that is not one of the two loops. -/
def Frame.isCall : Frame → Bool
  | .freeRef _ | .finish _ => true
  | _ => false

def State.Sound (s : State) : Prop := Gc.Sound s.headers s.allocated s.handles s.frames

/-- The values in the list of live headers are referred to. -/
def State.Live (s : State) : Prop :=
  ∀ p ∈ s.gcObjList, ∀ h, s.headers p = some h → h.gcObjType.isValue = true →
    0 < h.refCount ∧ h.freeMark = false

structure Between (s : State) : Prop where
  phase : s.gcPhase = .none
  zero : s.gcZeroRefCountList = []
  tmp : s.tmpObjList = []
  calls : ∀ f ∈ s.frames, f.isCall = true
  live : s.Live

/-- The loop of `free_zero_refcount` is on the stack, between the calls `a` and `b`. -/
structure Draining (s : State) (a b : List Frame) : Prop where
  phase : s.gcPhase = .decref
  tmp : s.tmpObjList = []
  frames : s.frames = a ++ .freeZeroRefcount :: b
  calls : ∀ f ∈ a ++ b, f.isCall = true
  live : s.Live
  zero : ∀ p ∈ s.gcZeroRefCountList, ∃ h, s.headers p = some h ∧ h.gcObjType.isValue = true ∧
    h.refCount = 0 ∧ (h.freeMark = true → p ∈ finishing a)

/-- The loop of `gc_free_cycles` is on the stack, below the calls `a`. What it leaves alone
is kept by the handles and closed under references. -/
structure Sweeping (s : State) (a : List Frame) : Prop where
  phase : s.gcPhase = .removeCycles
  frames : s.frames = a ++ [.gcFreeCycles]
  calls : ∀ f ∈ a, f.isCall = true
  rooted : ∀ p ∈ s.handles, p ∈ s.gcObjList
  closed : ∀ p ∈ s.gcObjList, ∀ c ∈ s.children p, c ∈ s.gcObjList
  supported : ∀ p ∈ s.gcObjList, p ∈ s.handles ∨ ∃ q ∈ s.gcObjList, p ∈ s.children q
  unmarked : ∀ p ∈ s.gcObjList, ∀ h, s.headers p = some h → h.freeMark = false
  tmp : ∀ p ∈ s.tmpObjList, ∀ h, s.headers p = some h → h.freeMark = true → p ∈ finishing a
  zero : ∀ p ∈ s.gcZeroRefCountList, ∀ h, s.headers p = some h → h.gcObjType.isValue = true →
    h.freeMark = true

/-- A state of the engine between two turns. -/
structure Running (s : State) : Prop where
  sound : s.Sound
  phase : Between s ∨ (∃ a b, Draining s a b) ∨ ∃ a, Sweeping s a

def unmarkedIn (H : Address → Option Header) (p : Address) : Bool :=
  match H p with
  | some h => !h.freeMark
  | none => false

def loops (fs : List Frame) : Nat := fs.countP (fun f => !f.isCall)

@[simp] theorem loops_append : loops (a ++ b) = loops a + loops b := List.countP_append

@[simp] theorem loops_freeRef : loops (.freeRef c :: k) = loops k := by
  simp [loops, Frame.isCall]

@[simp] theorem loops_finish : loops (.finish p :: k) = loops k := by simp [loops, Frame.isCall]

@[simp] theorem loops_freeZeroRefcount : loops (.freeZeroRefcount :: k) = loops k + 1 := by
  simp [loops, Frame.isCall]

@[simp] theorem loops_gcFreeCycles : loops (.gcFreeCycles :: k) = loops k + 1 := by
  simp [loops, Frame.isCall]

@[simp] theorem loops_freeRefs (cs : List Address) : loops (cs.map .freeRef) = 0 := by
  simp [loops, Frame.isCall, List.countP_eq_zero]

/-- Every turn makes it less. -/
def State.work (s : State) : Nat :=
  6 * (pending s.frames).length + (finishing s.frames).length +
    loops s.frames + 6 * (heldBy s.children s.allocated).length +
    2 * (s.gcZeroRefCountList ++ s.tmpObjList).countP (unmarkedIn s.headers) +
    s.tmpObjList.length

namespace State

theorem mem_allocated :
    p ∈ s.allocated ↔ p ∈ s.gcObjList ∨ p ∈ s.gcZeroRefCountList ∨ p ∈ s.tmpObjList := by
  simp [allocated]

theorem Sound.distinct (S : s.Sound) : s.allocated.Nodup := Gc.Sound.distinct S

theorem nodup_lists (d : s.allocated.Nodup) :
    s.gcObjList.Nodup ∧ s.gcZeroRefCountList.Nodup ∧ s.tmpObjList.Nodup ∧
      (∀ p ∈ s.gcObjList, p ∉ s.gcZeroRefCountList ∧ p ∉ s.tmpObjList) ∧
      ∀ p ∈ s.gcZeroRefCountList, p ∉ s.tmpObjList := by
  simp only [allocated, List.nodup_append, List.mem_append] at d
  obtain ⟨⟨d₁, d₂, d₁₂⟩, d₃, d₃'⟩ := d
  refine ⟨d₁, d₂, d₃, fun p hp => ⟨fun hq => d₁₂ p hp p hq rfl, fun hq => ?_⟩, fun p hp hq => ?_⟩
  · exact d₃' p (.inl hp) p hq rfl
  · exact d₃' p (.inr hp) p hq rfl

theorem allocated_unlink (d : s.allocated.Nodup) (p : Address) :
    (s.unlink p).allocated = s.allocated.erase p := by
  obtain ⟨-, -, -, d₁, d₂⟩ := nodup_lists d
  by_cases h₁ : p ∈ s.gcObjList
  · simp [allocated, unlink, List.erase_append_left _ h₁, List.erase_of_not_mem (d₁ p h₁).1,
      List.erase_of_not_mem (d₁ p h₁).2]
  · by_cases h₂ : p ∈ s.gcZeroRefCountList
    · simp [allocated, unlink, List.erase_append_right _ h₁, List.erase_append_left _ h₂,
        List.erase_of_not_mem h₁, List.erase_of_not_mem (d₂ p h₂)]
    · simp [allocated, unlink, List.erase_append_right _ h₁, List.erase_append_right _ h₂,
        List.erase_of_not_mem h₁, List.erase_of_not_mem h₂]

/-- A header taken out of its list and put into another one. -/
theorem perm_of_unlink {A : List Address} (d : s.allocated.Nodup) (mem : p ∈ s.allocated)
    (moved : A.Perm (p :: (s.unlink p).allocated)) : s.allocated.Perm A := by
  rw [allocated_unlink d] at moved
  exact (List.perm_cons_erase mem).trans moved.symm

end State

/-- A header whose count alone is written. -/
theorem of_recount {H : Address → Option Header} {x : Int} {hq : Header} (at_c : H c = some h)
    (at_q : Function.update H c (some { h with refCount := x }) q = some hq) :
    ∃ h₀, H q = some h₀ ∧ hq = { h₀ with refCount := if q = c then x else h₀.refCount } := by
  by_cases eq : q = c
  · subst eq
    simp only [Function.update_self, Option.some.injEq] at at_q
    exact ⟨h, at_c, by rw [if_pos rfl, at_q]⟩
  · rw [Function.update_of_ne eq] at at_q
    exact ⟨hq, at_q, by rw [if_neg eq]⟩

theorem unmarkedIn_recount {H : Address → Option Header} (at_c : H c = some h) (x : Int) :
    unmarkedIn (Function.update H c (some { h with refCount := x })) = unmarkedIn H := by
  funext q
  by_cases eq : q = c
  · subst eq
    simp [unmarkedIn, at_c]
  · simp [unmarkedIn, eq]

/-- The call on top of the stack is above the loop. -/
theorem call_above {l : Frame} (eq : a ++ l :: b = f :: k) (call : f.isCall = true)
    (loop : l.isCall = false) : ∃ a', a = f :: a' ∧ k = a' ++ l :: b := by
  cases a with
  | nil =>
    simp only [List.nil_append, List.cons.injEq] at eq
    rw [eq.1, call] at loop
    cases loop
  | cons f' a' =>
    simp only [List.cons_append, List.cons.injEq] at eq
    exact ⟨a', by rw [eq.1], eq.2.symm⟩

/-- A loop on top of the stack has no call above it. -/
theorem loop_on_top {l l' : Frame} (eq : a ++ l :: b = l' :: k) (loop : l'.isCall = false)
    (calls : ∀ f ∈ a, f.isCall = true) : a = [] ∧ l = l' ∧ b = k := by
  cases a with
  | nil =>
    simp only [List.nil_append, List.cons.injEq] at eq
    exact ⟨rfl, eq⟩
  | cons f a' =>
    simp only [List.cons_append, List.cons.injEq] at eq
    have := calls f (by simp)
    rw [eq.1, loop] at this
    cases this

/-- The state behind a call that only took a reference away from a header. -/
def State.dropped (s : State) (c : Address) (h : Header) (k : List Frame) : State :=
  { s with frames := k }.put c { h with refCount := h.refCount - 1 }

theorem Live.dropped (L : s.Live) (at_c : s.headers c = some h) (many : 1 < h.refCount) :
    (s.dropped c h k).Live := by
  intro p mem hp at_p value
  obtain ⟨h₀, at_p₀, rfl⟩ := of_recount at_c at_p
  have ⟨pos, unmarked⟩ := L p mem h₀ at_p₀ value
  refine ⟨?_, unmarked⟩
  show 0 < if p = c then h.refCount - 1 else h₀.refCount
  split_ifs
  · omega
  · exact pos

theorem Between.dropped (B : Between s) (eq : s.frames = .freeRef c :: k)
    (at_c : s.headers c = some h) (many : 1 < h.refCount) : Between (s.dropped c h k) where
  phase := B.phase
  zero := B.zero
  tmp := B.tmp
  calls := fun f mem => B.calls f (by rw [eq]; exact List.mem_cons_of_mem _ mem)
  live := Live.dropped B.live at_c many

theorem Draining.dropped (D : Draining s a b) (eq : s.frames = .freeRef c :: k)
    (at_c : s.headers c = some h) (many : 1 < h.refCount) :
    ∃ a', Draining (s.dropped c h k) a' b := by
  obtain ⟨a', rfl, rfl⟩ := call_above (D.frames.symm.trans eq) rfl rfl
  refine ⟨a', ?_⟩
  constructor
  case phase => exact D.phase
  case tmp => exact D.tmp
  case frames => rfl
  case calls => exact fun f mem => D.calls f (List.mem_cons_of_mem _ mem)
  case live => exact Live.dropped D.live at_c many
  case zero =>
    intro p mem
    obtain ⟨hp, at_p, value, zero, marked⟩ := D.zero p mem
    have ne : p ≠ c := by
      rintro rfl
      rw [at_c, Option.some.injEq] at at_p
      subst at_p
      omega
    refine ⟨hp, ?_, value, zero, by simpa [Frame.finishes] using marked⟩
    exact (Function.update_of_ne ne _ _).trans at_p

theorem Sweeping.dropped (W : Sweeping s a) (eq : s.frames = .freeRef c :: k)
    (at_c : s.headers c = some h) : ∃ a', Sweeping (s.dropped c h k) a' := by
  obtain ⟨a', rfl, rfl⟩ := call_above (W.frames.symm.trans eq) rfl rfl
  have same : (s.dropped c h (a' ++ [.gcFreeCycles])).children = s.children :=
    childrenIn_recount at_c rfl
  refine ⟨a', ?_⟩
  constructor
  case phase => exact W.phase
  case frames => rfl
  case calls => exact fun f mem => W.calls f (List.mem_cons_of_mem _ mem)
  case rooted => exact W.rooted
  case closed => simp only [same]; exact W.closed
  case supported => simp only [same]; exact W.supported
  case unmarked =>
    intro p mem hp at_p
    obtain ⟨h₀, at_p₀, rfl⟩ := of_recount at_c at_p
    exact W.unmarked p mem h₀ at_p₀
  case tmp =>
    intro p mem hp at_p marked
    obtain ⟨h₀, at_p₀, rfl⟩ := of_recount at_c at_p
    simpa [Frame.finishes] using W.tmp p mem h₀ at_p₀ marked
  case zero =>
    intro p mem hp at_p value
    obtain ⟨h₀, at_p₀, rfl⟩ := of_recount at_c at_p
    exact W.zero p mem h₀ at_p₀ value

theorem work_dropped (eq : s.frames = .freeRef c :: k) (at_c : s.headers c = some h) :
    (s.dropped c h k).work + 6 = s.work := by
  have same : (s.dropped c h k).children = s.children := childrenIn_recount at_c rfl
  have unmarked := unmarkedIn_recount (H := s.headers) at_c (h.refCount - 1)
  simp only [State.work, same, eq]
  simp only [State.dropped, State.put, State.allocated, unmarked, pending_cons, finishing_cons,
    Frame.refs, Frame.finishes, loops_freeRef, List.nil_append, List.length_append,
    List.length_singleton]
  omega

theorem State.perm_wait (d : s.allocated.Nodup) (mem : p ∈ s.allocated) :
    s.allocated.Perm ((s.unlink p).gcObjList ++ p :: (s.unlink p).gcZeroRefCountList ++
      (s.unlink p).tmpObjList) := by
  apply s.perm_of_unlink d mem
  simp only [State.allocated, List.append_assoc, List.cons_append]
  exact List.perm_middle

theorem countP_unlink_le (s : State) (p : Address) (P : Address → Bool) :
    (p :: (s.unlink p).gcZeroRefCountList ++ (s.unlink p).tmpObjList).countP P ≤
      (s.gcZeroRefCountList ++ s.tmpObjList).countP P + 1 := by
  have zero : (s.gcZeroRefCountList.erase p).countP P ≤ s.gcZeroRefCountList.countP P :=
    (List.erase_sublist).countP_le
  have tmp : (s.tmpObjList.erase p).countP P ≤ s.tmpObjList.countP P :=
    (List.erase_sublist).countP_le
  simp only [State.unlink, List.cons_append, List.countP_cons, List.countP_append]
  split_ifs <;> omega

theorem work_jsFreeValueRt (d : s.allocated.Nodup) (mem : p ∈ s.allocated)
    (phase : s.gcPhase ≠ .removeCycles) : (s.jsFreeValueRt p).work ≤ s.work + 3 := by
  have held := (heldBy_perm s.children (s.perm_wait d mem)).length_eq
  have waiting := countP_unlink_le s p (unmarkedIn s.headers)
  have tmp : (s.unlink p).tmpObjList.length ≤ s.tmpObjList.length :=
    (List.erase_sublist).length_le
  cases eq : s.gcPhase with
  | removeCycles => exact absurd eq phase
  | none =>
    simp only [State.work, State.jsFreeValueRt, eq]
    simp only [State.allocated, State.children, State.unlink, List.append_assoc,
      List.cons_append, pending_cons, finishing_cons, Frame.refs, Frame.finishes,
      List.nil_append, loops_freeZeroRefcount] at held waiting tmp ⊢
    omega
  | decref =>
    simp only [State.work, State.jsFreeValueRt, eq]
    simp only [State.allocated, State.children, State.unlink, List.append_assoc,
      List.cons_append] at held waiting tmp ⊢
    omega

theorem dropped_self : (s.dropped c h k).headers c = some { h with refCount := h.refCount - 1 } :=
  Function.update_self ..

theorem dropped_ne (ne : p ≠ c) : (s.dropped c h k).headers p = s.headers p :=
  Function.update_of_ne ne ..

/-- What stays in the list of live headers when one leaves it. -/
theorem Live.unlinked (L : s.Live) (d : s.gcObjList.Nodup) :
    ∀ p ∈ s.gcObjList.erase c, ∀ hp, (s.dropped c h k).headers p = some hp →
      hp.gcObjType.isValue = true → 0 < hp.refCount ∧ hp.freeMark = false := by
  intro p mem hp at_p
  obtain ⟨ne, old⟩ := (List.Nodup.mem_erase_iff d).mp mem
  rw [dropped_ne ne] at at_p
  exact L p old hp at_p

theorem Between.waits (B : Between s) (S : s.Sound) (eq : s.frames = .freeRef c :: k)
    (at_c : s.headers c = some h) (value : h.gcObjType.isValue = true) (last : h.refCount = 1) :
    Draining ((s.dropped c h k).jsFreeValueRt c) [] k := by
  have d := (State.nodup_lists S.distinct).1
  have mem : c ∈ s.gcObjList := by
    have := S.mem_of_header at_c
    simpa [State.allocated, B.zero, B.tmp] using this
  have phase : (s.dropped c h k).gcPhase = .none := B.phase
  have lists : ((s.dropped c h k).unlink c).gcZeroRefCountList = [] := by
    simp [State.unlink, State.dropped, State.put, B.zero]
  have tmp : ((s.dropped c h k).unlink c).tmpObjList = [] := by
    simp [State.unlink, State.dropped, State.put, B.tmp]
  simp only [State.jsFreeValueRt, phase, lists]
  constructor
  case phase => rfl
  case tmp => exact tmp
  case frames => rfl
  case calls => exact fun f mem => B.calls f (by rw [eq]; exact List.mem_cons_of_mem _ mem)
  case live => exact Live.unlinked B.live d
  case zero =>
    intro p mem'
    obtain rfl := List.mem_singleton.mp mem'
    have ⟨_, unmarked⟩ := B.live p mem h at_c value
    refine ⟨_, dropped_self, value, ?_, fun marked => ?_⟩
    · simp [last]
    · simp only [unmarked] at marked
      cases marked

theorem Draining.mem_live (D : Draining s a b) (S : s.Sound) (at_c : s.headers c = some h)
    (pos : 0 < h.refCount) : c ∈ s.gcObjList := by
  have := State.mem_allocated.mp (S.mem_of_header at_c)
  rw [D.tmp] at this
  rcases this with live | waits | tmp
  · exact live
  · obtain ⟨h', at_c', -, zero, -⟩ := D.zero c waits
    rw [at_c, Option.some.injEq] at at_c'
    subst at_c'
    omega
  · cases tmp

theorem Draining.waits (D : Draining s a b) (S : s.Sound) (eq : s.frames = .freeRef c :: k)
    (at_c : s.headers c = some h) (value : h.gcObjType.isValue = true) (last : h.refCount = 1) :
    ∃ a', Draining ((s.dropped c h k).jsFreeValueRt c) a' b := by
  have mem := D.mem_live S at_c (by omega)
  obtain ⟨a', rfl, rfl⟩ := call_above (D.frames.symm.trans eq) rfl rfl
  have lists := State.nodup_lists S.distinct
  have phase : (s.dropped c h (a' ++ .freeZeroRefcount :: b)).gcPhase = .decref := D.phase
  refine ⟨a', ?_⟩
  simp only [State.jsFreeValueRt, phase]
  constructor
  case phase => exact D.phase
  case tmp => simp [State.unlink, State.dropped, State.put, D.tmp]
  case frames => rfl
  case calls => exact fun f mem => D.calls f (List.mem_cons_of_mem _ mem)
  case live => exact Live.unlinked D.live lists.1
  case zero =>
    intro p mem'
    rcases List.mem_cons.mp mem' with rfl | old
    · have ⟨_, unmarked⟩ := D.live p mem h at_c value
      refine ⟨_, dropped_self, value, ?_, fun marked => ?_⟩
      · simp [last]
      · simp only [unmarked] at marked
        cases marked
    · obtain ⟨ne, old⟩ := (List.Nodup.mem_erase_iff lists.2.1).mp old
      obtain ⟨hp, at_p, rest⟩ := D.zero p old
      refine ⟨hp, (dropped_ne ne).trans at_p, ?_⟩
      simpa [Frame.finishes] using rest

theorem release_self :
    (s.release c h').headers c = some { h' with freeMark := true, children := [] } :=
  Function.update_self ..

theorem release_ne (ne : p ≠ c) : (s.release c h').headers p = s.headers p :=
  Function.update_of_ne ne ..

@[simp] theorem release_allocated : (s.release c h').allocated = s.allocated := rfl

@[simp] theorem release_zero :
    (s.release c h').gcZeroRefCountList = s.gcZeroRefCountList := rfl

@[simp] theorem release_tmp : (s.release c h').tmpObjList = s.tmpObjList := rfl

theorem release_frames :
    (s.release c h').frames = h'.children.map .freeRef ++ .finish c :: s.frames := by
  simp [State.release, State.push, State.put]

theorem calls_released {cs : List Address} (calls : ∀ f ∈ a, f.isCall = true) :
    ∀ f ∈ cs.map Frame.freeRef ++ .finish c :: a, f.isCall = true := by
  intro f mem
  simp only [List.mem_append, List.mem_map, List.mem_cons] at mem
  rcases mem with ⟨_, _, rfl⟩ | rfl | old
  · rfl
  · rfl
  · exact calls f old

theorem mem_finishing_released {cs : List Address} :
    p ∈ finishing (cs.map .freeRef ++ .finish c :: a) ↔ p = c ∨ p ∈ finishing a := by
  simp [Frame.finishes]

theorem Live.release (L : s.Live) (at_c : s.headers c = some h)
    (away : c ∉ s.gcObjList ∨ h.gcObjType.isValue = false)
    (type : h'.gcObjType = h.gcObjType) : (s.release c h').Live := by
  intro p mem hp at_p value
  by_cases eq : p = c
  · subst eq
    rw [release_self, Option.some.injEq] at at_p
    subst at_p
    have notValue := away.resolve_left (not_not_intro mem)
    rw [← type] at notValue
    exact absurd (notValue.symm.trans value) (by decide)
  · rw [release_ne eq] at at_p
    exact L p mem hp at_p value

theorem Between.release (B : Between s) (at_c : s.headers c = some h)
    (notValue : h.gcObjType.isValue = false) (type : h'.gcObjType = h.gcObjType) :
    Between (s.release c h') where
  phase := B.phase
  zero := B.zero
  tmp := B.tmp
  calls := by rw [release_frames]; exact calls_released B.calls
  live := Live.release B.live at_c (.inr notValue) type

theorem Draining.release (D : Draining s a b) (at_c : s.headers c = some h)
    (away : c ∉ s.gcObjList ∨ h.gcObjType.isValue = false)
    (type : h'.gcObjType = h.gcObjType)
    (count : h.gcObjType.isValue = true → h'.refCount = h.refCount) :
    Draining (s.release c h') (h'.children.map .freeRef ++ .finish c :: a) b := by
  constructor
  case phase => exact D.phase
  case tmp => exact D.tmp
  case frames => rw [release_frames, D.frames]; simp
  case calls =>
    intro f mem
    rcases List.mem_append.mp mem with left | right
    · exact calls_released (fun f mem => D.calls f (List.mem_append_left _ mem)) f left
    · exact D.calls f (List.mem_append_right _ right)
  case live => exact Live.release D.live at_c away type
  case zero =>
    intro p mem
    obtain ⟨hp, at_p, value, zero, marked⟩ := D.zero p mem
    by_cases eq : p = c
    · subst eq
      rw [at_c, Option.some.injEq] at at_p
      subst at_p
      refine ⟨_, release_self, type ▸ value, ?_, fun _ => mem_finishing_released.mpr (.inl rfl)⟩
      exact (count value).trans zero
    · refine ⟨hp, (release_ne eq).trans at_p, value, zero, fun m => ?_⟩
      exact mem_finishing_released.mpr (.inr (marked m))

theorem Sweeping.release (W : Sweeping s a) (away : c ∉ s.gcObjList) :
    Sweeping (s.release c h') (h'.children.map .freeRef ++ .finish c :: a) := by
  have same : ∀ p ∈ s.gcObjList, (s.release c h').children p = s.children p := fun p mem =>
    childrenIn_update_ne (by rintro rfl; exact away mem) _
  constructor
  case phase => exact W.phase
  case frames => rw [release_frames, W.frames]; simp
  case calls => exact calls_released W.calls
  case rooted => exact W.rooted
  case closed =>
    intro p mem d ref
    rw [same p mem] at ref
    exact W.closed p mem d ref
  case supported =>
    intro p mem
    rcases W.supported p mem with root | ⟨q, hq, ref⟩
    · exact .inl root
    · exact .inr ⟨q, hq, by rw [same q hq]; exact ref⟩
  case unmarked =>
    intro p mem hp at_p
    rw [release_ne (by rintro rfl; exact away mem)] at at_p
    exact W.unmarked p mem hp at_p
  case tmp =>
    intro p mem hp at_p marked
    by_cases eq : p = c
    · exact mem_finishing_released.mpr (.inl eq)
    · rw [release_ne eq] at at_p
      exact mem_finishing_released.mpr (.inr (W.tmp p mem hp at_p marked))
  case zero =>
    intro p mem hp at_p value
    by_cases eq : p = c
    · subst eq
      rw [release_self, Option.some.injEq] at at_p
      rw [← at_p]
    · rw [release_ne eq] at at_p
      exact W.zero p mem hp at_p value

theorem unmarkedIn_release (p : Address) (marked : unmarkedIn (s.release c h').headers p = true) :
    unmarkedIn s.headers p = true := by
  by_cases eq : p = c
  · subst eq
    simp [unmarkedIn, release_self] at marked
  · simpa only [unmarkedIn, release_ne eq] using marked

theorem work_release {g : Header} (d : s.allocated.Nodup) (mem : c ∈ s.allocated)
    (at_c : s.headers c = some h) (kids : g.children = h.children) :
    (s.release c g).work ≤ s.work + 1 ∧
      (c ∈ s.gcZeroRefCountList ++ s.tmpObjList → h.freeMark = false →
        (s.release c g).work + 1 ≤ s.work) := by
  have held := (heldBy_release (g := { g with freeMark := true, children := [] }) d mem at_c
    rfl).length_eq
  change (heldBy (s.release c g).children s.allocated ++ h.children).length =
    (heldBy s.children s.allocated).length at held
  rw [List.length_append] at held
  have waiting : (s.gcZeroRefCountList ++ s.tmpObjList).countP
      (unmarkedIn (s.release c g).headers) ≤
        (s.gcZeroRefCountList ++ s.tmpObjList).countP (unmarkedIn s.headers) :=
    List.countP_mono_left (fun p _ => unmarkedIn_release p)
  have total : (s.release c g).work + 2 * (s.gcZeroRefCountList ++ s.tmpObjList).countP
      (unmarkedIn s.headers) = s.work + 1 + 2 * (s.gcZeroRefCountList ++ s.tmpObjList).countP
        (unmarkedIn (s.release c g).headers) := by
    simp only [State.work, release_frames, pending_append, pending_cons, pending_freeRefs,
      finishing_append, finishing_cons, finishing_freeRefs, Frame.refs, Frame.finishes,
      loops_append, loops_freeRefs, loops_finish, List.length_append, List.length_nil,
      List.length_cons, List.nil_append, kids]
    simp only [release_allocated, release_zero, release_tmp]
    omega
  refine ⟨by omega, fun waits unmarked => ?_⟩
  have split := List.perm_cons_erase waits
  have before := split.countP_eq (unmarkedIn s.headers)
  have behind := split.countP_eq (unmarkedIn (s.release c g).headers)
  have rest : ((s.gcZeroRefCountList ++ s.tmpObjList).erase c).countP
      (unmarkedIn (s.release c g).headers) ≤
        ((s.gcZeroRefCountList ++ s.tmpObjList).erase c).countP (unmarkedIn s.headers) :=
    List.countP_mono_left (fun p _ => unmarkedIn_release p)
  have now : unmarkedIn (s.release c g).headers c = false := by
    simp [unmarkedIn, release_self]
  have was : unmarkedIn s.headers c = true := by simp [unmarkedIn, at_c, unmarked]
  rw [List.countP_cons_of_pos was] at before
  rw [List.countP_cons_of_neg (by simp [now])] at behind
  omega

theorem finish_marked (S : s.Sound) (eq : s.frames = .finish p :: k)
    (at_p : s.headers p = some h) : h.freeMark = true := by
  obtain ⟨h', at_p', marked⟩ := Gc.Sound.finish S p (by simp [eq, Frame.finishes])
  rw [at_p, Option.some.injEq] at at_p'
  rwa [at_p']

theorem finish_other (S : s.Sound) (eq : s.frames = .finish p :: k)
    (at_p : s.headers p = some h) (notValue : h.gcObjType.isValue = false) : h.refCount = 0 := by
  have := S.other p h at_p notValue
  rwa [if_pos (by simp [eq, Frame.finishes])] at this

/-- Outside `gc_free_cycles` what is finished is not referred to any more. -/
theorem Between.finish_zero (B : Between s) (S : s.Sound) (eq : s.frames = .finish p :: k)
    (at_p : s.headers p = some h) : h.refCount = 0 := by
  cases value : h.gcObjType.isValue with
  | false => exact finish_other S eq at_p value
  | true =>
    have mem : p ∈ s.gcObjList := by
      simpa [State.allocated, B.zero, B.tmp] using S.mem_of_header at_p
    have := (B.live p mem h at_p value).2
    rw [finish_marked S eq at_p] at this
    cases this

theorem Draining.finish_zero (D : Draining s a b) (S : s.Sound) (eq : s.frames = .finish p :: k)
    (at_p : s.headers p = some h) : h.refCount = 0 := by
  cases value : h.gcObjType.isValue with
  | false => exact finish_other S eq at_p value
  | true =>
    have away : p ∉ s.gcObjList := by
      intro mem
      have := (D.live p mem h at_p value).2
      rw [finish_marked S eq at_p] at this
      cases this
    have mem := State.mem_allocated.mp (S.mem_of_header at_p)
    rw [D.tmp] at mem
    obtain ⟨h', at_p', -, zero, -⟩ := D.zero p ((mem.resolve_left away).resolve_right (by simp))
    rw [at_p, Option.some.injEq] at at_p'
    rwa [at_p']

theorem Sweeping.finish_away (W : Sweeping s a) (S : s.Sound) (eq : s.frames = .finish p :: k)
    (at_p : s.headers p = some h) : p ∉ s.gcObjList := by
  intro mem
  have := W.unmarked p mem h at_p
  rw [finish_marked S eq at_p] at this
  cases this

/-- The state behind `js_free_rt` of a header. -/
def State.freed (s : State) (p : Address) (k : List Frame) : State :=
  { { s with frames := k }.unlink p with headers := Function.update s.headers p none }

theorem freed_ne (ne : q ≠ p) : (s.freed p k).headers q = s.headers q :=
  Function.update_of_ne ne ..

theorem freed_some {hq : Header} (at_q : (s.freed p k).headers q = some hq) :
    q ≠ p ∧ s.headers q = some hq := by
  by_cases eq : q = p
  · subst eq
    simp [State.freed] at at_q
  · exact ⟨eq, by rwa [freed_ne eq] at at_q⟩

theorem Live.freed (L : s.Live) : (s.freed p k).Live := by
  intro q mem hq at_q
  exact L q (List.mem_of_mem_erase mem) hq (freed_some at_q).2

theorem Between.freed (B : Between s) (eq : s.frames = .finish p :: k) : Between (s.freed p k) where
  phase := B.phase
  zero := by simp [State.freed, State.unlink, B.zero]
  tmp := by simp [State.freed, State.unlink, B.tmp]
  calls := fun f mem => B.calls f (by rw [eq]; exact List.mem_cons_of_mem _ mem)
  live := Live.freed B.live

theorem Draining.freed (D : Draining s a b) (d : s.gcZeroRefCountList.Nodup)
    (eq : s.frames = .finish p :: k) : ∃ a', Draining (s.freed p k) a' b := by
  obtain ⟨a', rfl, rfl⟩ := call_above (D.frames.symm.trans eq) rfl rfl
  refine ⟨a', ?_⟩
  constructor
  case phase => exact D.phase
  case tmp => simp [State.freed, State.unlink, D.tmp]
  case frames => rfl
  case calls => exact fun f mem => D.calls f (List.mem_cons_of_mem _ mem)
  case live => exact Live.freed D.live
  case zero =>
    intro q mem
    obtain ⟨ne, old⟩ := (List.Nodup.mem_erase_iff d).mp mem
    obtain ⟨hq, at_q, value, zero, marked⟩ := D.zero q old
    refine ⟨hq, (freed_ne ne).trans at_q, value, zero, fun m => ?_⟩
    simpa [Frame.finishes, ne] using marked m

theorem Sweeping.freed (W : Sweeping s a) (away : p ∉ s.gcObjList)
    (eq : s.frames = .finish p :: k) : ∃ a', Sweeping (s.freed p k) a' := by
  obtain ⟨a', rfl, rfl⟩ := call_above (W.frames.symm.trans eq) rfl rfl
  have list : (s.freed p (a' ++ [.gcFreeCycles])).gcObjList = s.gcObjList :=
    List.erase_of_not_mem away
  have same : ∀ q ∈ s.gcObjList, (s.freed p (a' ++ [.gcFreeCycles])).children q = s.children q :=
    fun q mem => childrenIn_update_ne (by rintro rfl; exact away mem) _
  refine ⟨a', ?_⟩
  constructor
  case phase => exact W.phase
  case frames => rfl
  case calls => exact fun f mem => W.calls f (List.mem_cons_of_mem _ mem)
  case rooted => rw [list]; exact W.rooted
  case closed =>
    intro q mem c ref
    rw [list] at mem ⊢
    rw [same q mem] at ref
    exact W.closed q mem c ref
  case supported =>
    intro q mem
    rw [list] at mem ⊢
    rcases W.supported q mem with root | ⟨r, hr, ref⟩
    · exact .inl root
    · exact .inr ⟨r, hr, by rw [same r hr]; exact ref⟩
  case unmarked =>
    intro q mem hq at_q
    exact W.unmarked q (List.mem_of_mem_erase mem) hq (freed_some at_q).2
  case tmp =>
    intro q mem hq at_q marked
    have ⟨ne, old⟩ := freed_some at_q
    simpa [Frame.finishes, ne] using W.tmp q (List.mem_of_mem_erase mem) hq old marked
  case zero =>
    intro q mem hq at_q
    exact W.zero q (List.mem_of_mem_erase mem) hq (freed_some at_q).2

/-- The state behind the end of a value that is still referred to from its cycle. -/
def State.kept (s : State) (p : Address) (k : List Frame) : State :=
  { { s with frames := k }.unlink p with
    gcZeroRefCountList := ({ s with frames := k }.unlink p).gcZeroRefCountList ++ [p] }

theorem Sweeping.kept (W : Sweeping s a) (S : s.Sound) (eq : s.frames = .finish p :: k)
    (at_p : s.headers p = some h) : ∃ a', Sweeping (s.kept p k) a' := by
  have marked := finish_marked S eq at_p
  have away := W.finish_away S eq at_p
  have lists := State.nodup_lists S.distinct
  obtain ⟨a', rfl, rfl⟩ := call_above (W.frames.symm.trans eq) rfl rfl
  have list : (s.kept p (a' ++ [.gcFreeCycles])).gcObjList = s.gcObjList :=
    List.erase_of_not_mem away
  refine ⟨a', ?_⟩
  constructor
  case phase => exact W.phase
  case frames => rfl
  case calls => exact fun f mem => W.calls f (List.mem_cons_of_mem _ mem)
  case rooted => rw [list]; exact W.rooted
  case closed => rw [list]; exact W.closed
  case supported => rw [list]; exact W.supported
  case unmarked => rw [list]; exact W.unmarked
  case tmp =>
    intro q mem hq at_q m
    obtain ⟨ne, old⟩ := (List.Nodup.mem_erase_iff lists.2.2.1).mp mem
    simpa [Frame.finishes, ne] using W.tmp q old hq at_q m
  case zero =>
    intro q mem hq at_q value
    rcases List.mem_append.mp mem with old | last
    · exact W.zero q (List.mem_of_mem_erase old) hq at_q value
    · obtain rfl := List.mem_singleton.mp last
      exact (congrArg Header.freeMark (Option.some.inj (at_q.symm.trans at_p))).trans marked

theorem work_freed (S : s.Sound) (eq : s.frames = .finish p :: k)
    (at_p : s.headers p = some h) : (s.freed p k).work + 1 ≤ s.work := by
  have mem := S.mem_of_header at_p
  have empty : s.children p = [] :=
    (childrenIn_some at_p).trans (S.given p h at_p (finish_marked S eq at_p))
  have held := (heldBy_erase s.children mem).length_eq
  rw [empty, List.nil_append] at held
  have same : heldBy (s.freed p k).children (s.freed p k).allocated =
      heldBy s.children (s.allocated.erase p) := by
    have list : (s.freed p k).allocated = s.allocated.erase p :=
      State.allocated_unlink S.distinct p
    rw [list]
    apply heldBy_congr
    intro q hq
    exact childrenIn_update_ne ((List.Nodup.mem_erase_iff S.distinct).mp hq).1 _
  have waiting : ((s.freed p k).gcZeroRefCountList ++ (s.freed p k).tmpObjList).countP
      (unmarkedIn (s.freed p k).headers) ≤
        (s.gcZeroRefCountList ++ s.tmpObjList).countP (unmarkedIn s.headers) := by
    have fewer : ∀ q, unmarkedIn (s.freed p k).headers q = true →
        unmarkedIn s.headers q = true := by
      intro q
      by_cases eq : q = p
      · subst eq; simp [unmarkedIn, State.freed]
      · simp only [unmarkedIn, freed_ne eq, imp_self]
    exact (List.countP_mono_left (fun q _ => fewer q)).trans
      ((List.erase_sublist).append (List.erase_sublist)).countP_le
  have tmp : (s.freed p k).tmpObjList.length ≤ s.tmpObjList.length :=
    (List.erase_sublist).length_le
  simp only [State.work, same, ← held, eq, pending_cons, finishing_cons, Frame.refs,
    Frame.finishes, loops_finish, List.nil_append, List.length_append, List.length_singleton]
  have frames : (s.freed p k).frames = k := rfl
  rw [frames]
  omega

theorem perm_kept (S : s.Sound) (at_p : s.headers p = some h) (k : List Frame) :
    s.allocated.Perm (s.kept p k).allocated := by
  apply s.perm_of_unlink S.distinct (S.mem_of_header at_p)
  simp only [State.kept, State.allocated, List.append_assoc]
  exact (List.perm_append_left_iff _).mpr List.perm_middle |>.trans List.perm_middle

theorem work_kept (S : s.Sound) (eq : s.frames = .finish p :: k)
    (at_p : s.headers p = some h) : (s.kept p k).work + 1 ≤ s.work := by
  have marked := finish_marked S eq at_p
  have list := perm_kept S at_p k
  have held := (heldBy_perm s.children list).length_eq
  have waiting : ((s.kept p k).gcZeroRefCountList ++ (s.kept p k).tmpObjList).countP
      (unmarkedIn s.headers) ≤
        (s.gcZeroRefCountList ++ s.tmpObjList).countP (unmarkedIn s.headers) := by
    have zero : (s.gcZeroRefCountList.erase p).countP (unmarkedIn s.headers) ≤
        s.gcZeroRefCountList.countP (unmarkedIn s.headers) := (List.erase_sublist).countP_le
    have tmp : (s.tmpObjList.erase p).countP (unmarkedIn s.headers) ≤
        s.tmpObjList.countP (unmarkedIn s.headers) := (List.erase_sublist).countP_le
    have last : unmarkedIn s.headers p = false := by simp [unmarkedIn, at_p, marked]
    simp only [State.kept, State.unlink, List.countP_append, List.countP_singleton, last]
    simp only [Bool.false_eq_true, if_false]
    omega
  have tmp : (s.kept p k).tmpObjList.length ≤ s.tmpObjList.length :=
    (List.erase_sublist).length_le
  have frames : (s.kept p k).frames = k := rfl
  change _ = (heldBy (s.kept p k).children _).length at held
  simp only [State.work, held, eq, pending_cons, finishing_cons, Frame.refs, frames,
    Frame.finishes, loops_finish, List.nil_append, List.length_append, List.length_singleton]
  have headers : (s.kept p k).headers = s.headers := rfl
  rw [headers]
  omega

/-- The state behind `gc_free_cycles`. -/
def State.swept (s : State) (k : List Frame) : State :=
  { s with
    headers := fun p => if p ∈ s.gcZeroRefCountList then none else s.headers p
    gcZeroRefCountList := []
    gcPhase := .none
    frames := k }

/-- Headers each of which is referred to by a handle or by one of them. -/
def Supported (s : State) (B : Address → Prop) : Prop :=
  ∀ p, B p → (∃ h, s.headers p = some h ∧ h.freeMark = false) ∧
    (p ∈ s.handles ∨ ∃ q, B q ∧ p ∈ s.children q)

theorem Supported.carry {s s' : State} {B : Address → Prop} (S : Supported s B)
    (handles : s'.handles = s.handles)
    (same : ∀ p, B p → ∀ h, s.headers p = some h → h.freeMark = false →
      ∃ h', s'.headers p = some h' ∧ h'.freeMark = false ∧ h'.children = h.children) :
    Supported s' B := by
  intro p mem
  obtain ⟨⟨h, at_p, unmarked⟩, ref⟩ := S p mem
  obtain ⟨h', at_p', unmarked', -⟩ := same p mem h at_p unmarked
  refine ⟨⟨h', at_p', unmarked'⟩, ?_⟩
  rcases ref with root | ⟨q, hq, ref⟩
  · exact .inl (by rwa [handles])
  · obtain ⟨⟨h₀, at_q, unmarked₀⟩, -⟩ := S q hq
    obtain ⟨h₁, at_q', -, kids⟩ := same q hq h₀ at_q unmarked₀
    refine .inr ⟨q, hq, ?_⟩
    rw [State.children, childrenIn_some at_q] at ref
    rw [State.children, childrenIn_some at_q', kids]
    exact ref

/-- The handles stay, no header comes to the live ones, a header is as it was unless its
fields are given up, a sweep touches no live header, and outside a sweep headers that
support one another are left alone. -/
structure Keeps (s s' : State) : Prop where
  handles : s'.handles = s.handles
  live : ∀ p ∈ s'.gcObjList, p ∈ s.gcObjList
  header : ∀ p h', s'.headers p = some h' → h'.freeMark = false →
    ∃ h, s.headers p = some h ∧ h.freeMark = false ∧ h'.gcObjType = h.gcObjType ∧
      h'.children = h.children ∧ h'.mark = h.mark
  sweep : s.gcPhase = .removeCycles →
    s'.gcObjList = s.gcObjList ∧ (s'.gcPhase = .removeCycles ∨ s'.frames = [])
  supported : s.gcPhase ≠ .removeCycles → s'.gcPhase ≠ .removeCycles ∧
    ∀ B, Supported s B → Supported s' B

theorem Keeps.refl (s : State) : Keeps s s where
  handles := rfl
  live := fun _ mem => mem
  header := fun _ h' at_p unmarked => ⟨h', at_p, unmarked, rfl, rfl, rfl⟩
  sweep := fun phase => ⟨rfl, .inl phase⟩
  supported := fun phase => ⟨phase, fun _ S => S⟩

theorem Keeps.trans {s₁ s₂ : State} (K : Keeps s s₁) (K' : Keeps s₁ s₂)
    (busy : s₁.frames ≠ []) : Keeps s s₂ where
  handles := K'.handles.trans K.handles
  live := fun p mem => K.live p (K'.live p mem)
  header := by
    intro p h₂ at_p unmarked
    obtain ⟨h₁, at_p₁, unmarked₁, type₁, kids₁, mark₁⟩ := K'.header p h₂ at_p unmarked
    obtain ⟨h, at_p₀, unmarked₀, type, kids, mark⟩ := K.header p h₁ at_p₁ unmarked₁
    exact ⟨h, at_p₀, unmarked₀, type₁.trans type, kids₁.trans kids, mark₁.trans mark⟩
  sweep := by
    intro phase
    obtain ⟨list, phase₁⟩ := K.sweep phase
    obtain ⟨list', phase₂⟩ := K'.sweep (phase₁.resolve_right busy)
    exact ⟨list'.trans list, phase₂⟩
  supported := by
    intro phase
    obtain ⟨phase₁, S⟩ := K.supported phase
    obtain ⟨phase₂, S'⟩ := K'.supported phase₁
    exact ⟨phase₂, fun B h => S' B (S B h)⟩

/-- A header's count is written. -/
theorem Keeps.dropped (at_c : s.headers c = some h) : Keeps s (s.dropped c h k) where
  handles := rfl
  live := fun _ mem => mem
  header := by
    intro p h' at_p unmarked
    obtain ⟨h₀, at_p₀, rfl⟩ := of_recount at_c at_p
    exact ⟨h₀, at_p₀, unmarked, rfl, rfl, rfl⟩
  sweep := fun phase => ⟨rfl, .inl phase⟩
  supported := by
    refine fun phase => ⟨phase, fun B S => S.carry rfl fun p _ hp at_p unmarked => ?_⟩
    by_cases eq : p = c
    · subst eq
      rw [at_c, Option.some.injEq] at at_p
      subst at_p
      exact ⟨_, dropped_self, unmarked, rfl⟩
    · exact ⟨hp, (dropped_ne eq).trans at_p, unmarked, rfl⟩

theorem Keeps.waits (at_c : s.headers c = some h) :
    Keeps s ((s.dropped c h k).jsFreeValueRt c) := by
  have K : Keeps s (s.dropped c h k) := Keeps.dropped at_c
  have counts : (s.dropped c h k).gcPhase ≠ .removeCycles →
      ∀ B, Supported s B → Supported (s.dropped c h k) B := fun phase => (K.supported phase).2
  cases phase : (s.dropped c h k).gcPhase with
  | removeCycles => rwa [State.jsFreeValueRt, phase]
  | decref =>
    have other : (s.dropped c h k).gcPhase ≠ .removeCycles := by rw [phase]; decide
    rw [State.jsFreeValueRt, phase]
    exact ⟨rfl, fun p mem => K.live p (List.mem_of_mem_erase mem), K.header,
      fun p => absurd p other, fun _ => ⟨other, counts other⟩⟩
  | none =>
    have other : (s.dropped c h k).gcPhase ≠ .removeCycles := by rw [phase]; decide
    rw [State.jsFreeValueRt, phase]
    exact ⟨rfl, fun p mem => K.live p (List.mem_of_mem_erase mem), K.header,
      fun p => absurd p other, fun _ => ⟨by simp, counts other⟩⟩

/-- A header that nothing but a call under way referred to gives up its fields. -/
theorem Keeps.release (h' : Header) (fs : List Frame)
    (alone : s.gcPhase ≠ .removeCycles → c ∉ s.handles ∧ ∀ q, c ∉ s.children q) :
    Keeps s ({ s with frames := fs }.release c h') where
  handles := rfl
  live := fun _ mem => mem
  header := by
    intro p hp at_p unmarked
    by_cases eq : p = c
    · subst eq
      rw [release_self, Option.some.injEq] at at_p
      rw [← at_p] at unmarked
      cases unmarked
    · rw [release_ne eq] at at_p
      exact ⟨hp, at_p, unmarked, rfl, rfl, rfl⟩
  sweep := fun phase => ⟨rfl, .inl phase⟩
  supported := by
    refine fun phase => ⟨phase, fun B S => S.carry rfl fun p mem hp at_p unmarked => ?_⟩
    have ne : p ≠ c := by
      rintro rfl
      have ⟨root, field⟩ := alone phase
      rcases (S p mem).2 with held | ⟨q, -, ref⟩
      · exact root held
      · exact field q ref
    exact ⟨hp, (release_ne ne).trans at_p, unmarked, rfl⟩

theorem Keeps.freed (away : s.gcPhase = .removeCycles → p ∉ s.gcObjList)
    (marked : ∀ h, s.headers p = some h → h.freeMark = true) :
    Keeps s (s.freed p k) where
  handles := rfl
  live := fun _ mem => List.mem_of_mem_erase mem
  header := fun _ h' at_q unmarked => ⟨h', (freed_some at_q).2, unmarked, rfl, rfl, rfl⟩
  sweep := fun phase => ⟨List.erase_of_not_mem (away phase), .inl phase⟩
  supported := by
    refine fun phase => ⟨phase, fun B S => S.carry rfl fun q mem hq at_q unmarked => ?_⟩
    have ne : q ≠ p := by
      rintro rfl
      have := marked hq at_q
      rw [unmarked] at this
      cases this
    exact ⟨hq, (freed_ne ne).trans at_q, unmarked, rfl⟩

theorem Keeps.kept (sweep : s.gcPhase = .removeCycles) (away : p ∉ s.gcObjList) :
    Keeps s (s.kept p k) where
  handles := rfl
  live := fun _ mem => List.mem_of_mem_erase mem
  header := fun _ h' at_q unmarked => ⟨h', at_q, unmarked, rfl, rfl, rfl⟩
  sweep := fun phase => ⟨List.erase_of_not_mem away, .inl phase⟩
  supported := fun phase => absurd sweep phase

theorem Keeps.swept (sweep : s.gcPhase = .removeCycles) : Keeps s (s.swept []) where
  handles := rfl
  live := fun _ mem => mem
  header := by
    intro p h' at_p unmarked
    by_cases mem : p ∈ s.gcZeroRefCountList
    · simp [State.swept, mem] at at_p
    · exact ⟨h', by simpa [State.swept, mem] using at_p, unmarked, rfl, rfl, rfl⟩
  sweep := fun _ => ⟨rfl, .inr rfl⟩
  supported := fun phase => absurd sweep phase

end Gc
