import Goqjs.GcTurns

/-!
# The passes of the cycle collector

`gc_decref` takes away from every count the references held by headers, so that what is
left is held from outside. `gc_scan` gives them back from what is kept, header by header,
and the kept list grows until it holds what is reachable.
-/

namespace Gc

open ReferenceGraph

variable {s t : State} {done seen rs cs : List Address} {p q c : Address} {h : Header}

/-- A state of the engine with no free under way and no mark set. -/
structure Settled (s : State) : Prop where
  running : Running s
  frames : s.frames = []
  marks : ∀ p h, s.headers p = some h → h.mark = false

namespace Settled

theorem between (Q : Settled s) : Between s := by
  rcases Q.running.phase with B | ⟨a, b, D⟩ | ⟨a, W⟩
  · exact B
  · have := D.frames.symm.trans Q.frames
    simp at this
  · have := W.frames.symm.trans Q.frames
    simp at this

theorem allocated (Q : Settled s) : s.allocated = s.gcObjList := by
  simp [State.allocated, Q.between.zero, Q.between.tmp]

theorem distinct (Q : Settled s) : s.gcObjList.Nodup := by
  have := Q.running.sound.distinct
  rwa [Q.allocated] at this

theorem mem_iff (Q : Settled s) : p ∈ s.gcObjList ↔ ∃ h, s.headers p = some h := by
  rw [← Q.allocated]
  exact Q.running.sound.alloc p

theorem refs_eq (Q : Settled s) : refs s.headers s.allocated s.handles s.frames =
    s.handles ++ heldBy s.children s.gcObjList := by
  simp [refs, Q.frames, Q.allocated, State.children]

/-- The count of a header is what is held from outside and by headers. -/
theorem count (Q : Settled s) (at_p : s.headers p = some h) :
    h.refCount = s.handles.count p + (heldBy s.children s.gcObjList).count p := by
  have := Gc.Sound.counts Q.running.sound p h at_p
  rw [Q.refs_eq, List.count_append] at this
  rw [this]
  omega

theorem pos_unmarked (Q : Settled s) (at_p : s.headers p = some h) :
    0 < h.refCount ∧ h.freeMark = false := by
  cases value : h.gcObjType.isValue with
  | true => exact Q.between.live p (Q.mem_iff.mpr ⟨h, at_p⟩) h at_p value
  | false =>
    have := Gc.Sound.other Q.running.sound p h at_p value
    rwa [if_neg (by simp [Q.frames])] at this

theorem known (Q : Settled s) (ref : c ∈ s.handles ++ heldBy s.children s.gcObjList) :
    ∃ h, s.headers c = some h := by
  rw [← Q.refs_eq] at ref
  exact (Gc.Sound.alloc Q.running.sound c).mp (Gc.Sound.known Q.running.sound c ref)

end Settled

/-- No count is greater than an `int` can be. -/
def Fits (s : State) : Prop := ∀ p h, s.headers p = some h → h.refCount ≤ intMax

/-- A reference that is still to be given back finds room in the count. -/
theorem Fits.room (F : Fits s) (Q : Settled s) (at_c : s.headers c = some h)
    (more : rs.count c < (heldBy s.children s.gcObjList).count c) :
    (s.handles.count c : Int) + rs.count c < intMax := by
  have count := Q.count at_c
  have fits := F c h at_c
  omega

/-- The references `rs` are taken away and the headers of `done` are marked. -/
structure Trial (s : State) (done rs : List Address) (t : State) : Prop where
  header : ∀ p, t.headers p = (s.headers p).map fun h =>
    { h with refCount := h.refCount - rs.count p, mark := decide (p ∈ done) }
  lists : (t.gcObjList ++ t.tmpObjList).Perm s.gcObjList
  zero : t.gcZeroRefCountList = []
  tmp : ∀ p h, t.headers p = some h → (p ∈ t.tmpObjList ↔ h.mark = true ∧ h.refCount = 0)
  rest : t.handles = s.handles ∧ t.frames = s.frames ∧ t.gcPhase = s.gcPhase

namespace Trial

theorem of_perm (T : Trial s done rs t) (perm : rs.Perm cs) : Trial s done cs t where
  header := fun p => by rw [T.header p, perm.count_eq]
  lists := T.lists
  zero := T.zero
  tmp := T.tmp
  rest := T.rest

theorem mem_lists (T : Trial s done rs t) (Q : Settled s) (at_p : t.headers p = some h) :
    p ∈ t.gcObjList ++ t.tmpObjList := by
  rw [T.lists.mem_iff, Q.mem_iff]
  rw [T.header p] at at_p
  exact ⟨_, (Option.map_eq_some_iff.mp at_p).choose_spec.1⟩

theorem distinct (T : Trial s done rs t) (Q : Settled s) :
    (t.gcObjList ++ t.tmpObjList).Nodup := T.lists.nodup_iff.mpr Q.distinct

/-- Only the header `p` has another count or mark: it changes its list as these say. -/
theorem change (header : ∀ q, t.headers q = (s.headers q).map fun h =>
      { h with refCount := h.refCount - rs.count q, mark := decide (q ∈ done) })
    (lists : (t.gcObjList ++ t.tmpObjList).Perm s.gcObjList) (zero : t.gcZeroRefCountList = [])
    (rest : t.handles = s.handles ∧ t.frames = s.frames ∧ t.gcPhase = s.gcPhase)
    (at_p : t.headers p = some h) (live : p ∈ t.gcObjList) (away : p ∉ t.tmpObjList)
    (others : ∀ q h', t.headers q = some h' → q ≠ p →
      (q ∈ t.tmpObjList ↔ h'.mark = true ∧ h'.refCount = 0)) :
    Trial s done rs (if h.refCount = 0 ∧ h.mark = true then t.toTmp p else t) := by
  by_cases last : h.refCount = 0 ∧ h.mark = true
  · rw [if_pos last]
    have moved : ((t.toTmp p).gcObjList ++ (t.toTmp p).tmpObjList).Perm s.gcObjList := by
      refine List.Perm.trans ?_ lists
      simp only [State.toTmp, State.unlink, List.erase_of_not_mem away]
      rw [← List.append_assoc]
      refine (List.perm_append_singleton p _).trans ?_
      exact ((List.perm_cons_erase live).append_right _).symm
    refine ⟨header, moved, by simp [State.toTmp, State.unlink, zero], ?_, rest⟩
    intro q h' at_q
    simp only [State.toTmp, State.unlink, List.erase_of_not_mem away, List.mem_append,
      List.mem_singleton]
    by_cases eq : q = p
    · subst eq
      have same := Option.some.inj (at_q.symm.trans at_p)
      subst same
      simp [last]
    · simp only [eq, or_false]
      exact others q h' at_q eq
  · rw [if_neg last]
    refine ⟨header, lists, zero, ?_, rest⟩
    intro q h' at_q
    by_cases eq : q = p
    · subst eq
      have same := Option.some.inj (at_q.symm.trans at_p)
      subst same
      exact iff_of_false away (fun both => last ⟨both.2, both.1⟩)
    · exact others q h' at_q eq

theorem decrefChild (T : Trial s done rs t) (Q : Settled s) (at_c : t.headers c = some h)
    (pos : 0 < h.refCount) :
    ∃ t', t.gcDecrefChild c = some t' ∧ Trial s done (c :: rs) t' := by
  have at_s := T.header c
  rw [at_c] at at_s
  obtain ⟨h₀, at_c₀, same⟩ := Option.map_eq_some_iff.mp at_s.symm
  have away : c ∉ t.tmpObjList := fun mem => by
    have := (T.tmp c h at_c).mp mem
    omega
  have live := (List.mem_append.mp (T.mem_lists Q at_c)).resolve_right away
  refine ⟨if h.refCount - 1 = 0 ∧ h.mark = true then
      (t.put c { h with refCount := h.refCount - 1 }).toTmp c
    else t.put c { h with refCount := h.refCount - 1 }, ?_, ?_⟩
  · simp only [State.gcDecrefChild, at_c, pos, if_true, h.decref_of_pos pos, Option.bind_some]
    split_ifs <;> rfl
  refine change (t := t.put c { h with refCount := h.refCount - 1 }) ?_ T.lists T.zero T.rest
    (State.put_self ..) live away ?_
  · intro p
    by_cases eq : p = c
    · subst eq
      rw [State.put_self, at_c₀, Option.map_some, ← same]
      simp only [List.count_cons_self, Option.some.injEq, Header.mk.injEq, true_and, and_true]
      omega
    · rw [State.put_ne eq, T.header p, List.count_cons_of_ne (Ne.symm eq)]
  · intro p h' at_p ne
    rw [State.put_ne ne] at at_p
    exact T.tmp p h' at_p

/-- All the references of a header, as long as there are as many as are taken. -/
theorem decrefChildren (T : Trial s done rs t) (Q : Settled s)
    (room : ∀ c, (cs ++ rs).count c ≤ (heldBy s.children s.gcObjList).count c) :
    ∃ t', cs.foldlM State.gcDecrefChild t = some t' ∧ Trial s done (cs ++ rs) t' := by
  induction cs generalizing rs t with
  | nil => exact ⟨t, rfl, T⟩
  | cons c cs ih =>
    have more := room c
    simp only [List.cons_append, List.count_cons_self, List.count_append] at more
    have ref : c ∈ heldBy s.children s.gcObjList := List.count_pos_iff.mp (by omega)
    obtain ⟨h₀, at_c⟩ := Q.known (List.mem_append_right _ ref)
    have now := T.header c
    rw [at_c, Option.map_some] at now
    obtain ⟨t₁, next, T₁⟩ := T.decrefChild Q now (by
      have total := Q.count at_c
      show 0 < h₀.refCount - rs.count c
      omega)
    have perm : (cs ++ c :: rs).Perm (c :: cs ++ rs) := List.perm_middle
    obtain ⟨t₂, run, T₂⟩ := ih T₁ (fun c => by rw [perm.count_eq]; exact room c)
    refine ⟨t₂, ?_, T₂.of_perm perm⟩
    rw [List.foldlM_cons, next]
    exact run

theorem decrefOne (T : Trial s done rs t) (Q : Settled s) (mem : p ∈ s.gcObjList)
    (fresh : p ∉ done)
    (room : ∀ c, (s.children p ++ rs).count c ≤ (heldBy s.children s.gcObjList).count c) :
    ∃ t', t.gcDecrefOne p = some t' ∧ Trial s (p :: done) (s.children p ++ rs) t' := by
  obtain ⟨h₀, at_p⟩ := Q.mem_iff.mp mem
  have kids : s.children p = h₀.children := childrenIn_some at_p
  have before := T.header p
  rw [at_p, Option.map_some] at before
  obtain ⟨t₁, fold, T₁⟩ := T.decrefChildren Q room
  have now := T₁.header p
  rw [at_p, Option.map_some] at now
  simp only [fresh, decide_false] at now before
  have away : p ∉ t₁.tmpObjList := fun mem => by
    have := ((T₁.tmp p _ now).mp mem).1
    cases this
  have live := (List.mem_append.mp (T₁.mem_lists Q now)).resolve_right away
  let h₁ : Header :=
    { h₀ with refCount := h₀.refCount - (s.children p ++ rs).count p, mark := true }
  refine ⟨if h₁.refCount = 0 ∧ h₁.mark = true then (t₁.put p h₁).toTmp p else t₁.put p h₁, ?_, ?_⟩
  · simp only [State.gcDecrefOne, before, ← kids, fold, now, Option.bind_some, h₁, and_true,
      Bool.false_eq_true, if_false]
    split_ifs <;> rfl
  refine change (t := t₁.put p h₁) ?_ T₁.lists T₁.zero T₁.rest (State.put_self ..) live
    away ?_
  · intro q
    by_cases eq : q = p
    · subst eq
      rw [State.put_self]
      simp [at_p, h₁]
    · rw [State.put_ne eq, T₁.header q]
      simp [eq]
  · intro q h' at_q ne
    rw [State.put_ne ne] at at_q
    exact T₁.tmp q h' at_q

theorem decrefAll (T : Trial s done rs t) (Q : Settled s) (todo : List Address)
    (sub : ∀ p ∈ todo, p ∈ s.gcObjList) (fresh : (done ++ todo).Nodup)
    (room : ∀ c, (heldBy s.children todo ++ rs).count c ≤
      (heldBy s.children s.gcObjList).count c) :
    ∃ t' done', todo.foldlM State.gcDecrefOne t = some t' ∧ (∀ p, p ∈ done' ↔ p ∈ done ++ todo) ∧
      Trial s done' (heldBy s.children todo ++ rs) t' := by
  induction todo generalizing done rs t with
  | nil => exact ⟨t, done, rfl, by simp, by simpa using T⟩
  | cons p todo ih =>
    have split : (done ++ p :: todo).Perm (p :: done ++ todo) := List.perm_middle
    have apart := split.nodup_iff.mp fresh
    have out : p ∉ done := fun mem =>
      (List.nodup_cons.mp apart).1 (List.mem_append_left _ mem)
    have perm : (heldBy s.children todo ++ (s.children p ++ rs)).Perm
        (heldBy s.children (p :: todo) ++ rs) := by
      rw [heldBy_cons, ← List.append_assoc]
      exact List.perm_append_comm.append_right rs
    obtain ⟨t₁, next, T₁⟩ := T.decrefOne Q (sub p (by simp)) out (fun c => by
      have := room c
      rw [← perm.count_eq, List.count_append] at this
      omega)
    obtain ⟨t₂, done', run, mem, T₂⟩ := ih T₁ (fun q hq => sub q (by simp [hq])) apart
      (fun c => by rw [perm.count_eq]; exact room c)
    refine ⟨t₂, done', ?_, fun q => (mem q).trans ?_, T₂.of_perm perm⟩
    · rw [List.foldlM_cons, next]
      exact run
    · exact split.symm.mem_iff

end Trial

/-- Behind `gc_decref` a count is the number of handles, and what has none is set apart. -/
theorem gcDecref_exact (Q : Settled s) : ∃ t done, s.gcDecref = some t ∧
    Trial s done (heldBy s.children s.gcObjList) t ∧ ∀ p ∈ s.gcObjList, p ∈ done := by
  have start : Trial s [] [] { s with tmpObjList := [] } := by
    refine ⟨fun p => ?_, by simp, Q.between.zero, fun p h at_p => ?_, rfl, rfl, rfl⟩
    · cases at_p : s.headers p with
      | none => simp
      | some h => simp [← Q.marks p h at_p]
    · simp [Q.marks p h at_p]
  obtain ⟨t, done, run, mem, T⟩ := start.decrefAll Q s.gcObjList (fun _ h => h)
    (by simpa using Q.distinct) (by simp)
  exact ⟨t, done, run, by simpa using T, fun p hp => (mem p).mpr (by simpa using hp)⟩

/-- One more reference is given back to `c`. -/
theorem put_counts {P : Address → Prop} {h₀ : Header}
    (counts : ∀ p h, s.headers p = some h → ∃ m,
      t.headers p = some { h with refCount := s.handles.count p + rs.count p, mark := m } ∧
        (P p → m = false))
    (at_s : s.headers c = some h₀) {m : Bool} (mark : P c → m = false) (p : Address) (h : Header)
    (at_p : s.headers p = some h) : ∃ m',
      (t.put c { h₀ with refCount := s.handles.count c + rs.count c + 1, mark := m }).headers p =
        some { h with refCount := s.handles.count p + (c :: rs).count p, mark := m' } ∧
      (P p → m' = false) := by
  by_cases eq : p = c
  · subst eq
    obtain rfl := Option.some.inj (at_s.symm.trans at_p)
    refine ⟨m, (State.put_self t p _).trans ?_, mark⟩
    simp only [List.count_cons_self, Option.some.injEq, Header.mk.injEq, true_and, and_true]
    omega
  · obtain ⟨m', now, mark'⟩ := counts p h at_p
    refine ⟨m', ?_, mark'⟩
    rw [State.put_ne eq, List.count_cons_of_ne (Ne.symm eq)]
    exact now

theorem put_absent {h₀ : Header} (absent : ∀ p, s.headers p = none → t.headers p = none)
    (at_s : s.headers c = some h₀) (x : Header) (p : Address) (missing : s.headers p = none) :
    (t.put c x).headers p = none := by
  have ne : p ≠ c := by
    rintro rfl
    rw [at_s] at missing
    cases missing
  exact (State.put_ne ne t x).trans (absent p missing)

/-- The headers of `seen` are visited, and the references `rs` are given back. -/
structure Scan (s : State) (seen rs : List Address) (t : State) : Prop where
  header : ∀ p h, s.headers p = some h → ∃ m,
    t.headers p = some { h with refCount := s.handles.count p + rs.count p, mark := m } ∧
      (p ∈ seen → m = false)
  absent : ∀ p, s.headers p = none → t.headers p = none
  lists : (t.gcObjList ++ t.tmpObjList).Perm s.gcObjList
  zero : t.gcZeroRefCountList = []
  tmp : ∀ p h, t.headers p = some h → (p ∈ t.tmpObjList ↔ h.refCount = 0)
  reach : ∀ p ∈ t.gcObjList, Reachable s.children s.handles p
  rest : t.handles = s.handles ∧ t.frames = s.frames ∧ t.gcPhase = s.gcPhase

/-- The scan starts at the headers that are held from outside. -/
theorem Trial.scan (T : Trial s done (heldBy s.children s.gcObjList) t) (Q : Settled s)
    (all : ∀ p ∈ s.gcObjList, p ∈ done) : Scan s [] [] t where
  header := by
    intro p h at_p
    have now := T.header p
    rw [at_p, Option.map_some] at now
    refine ⟨true, ?_, fun mem => by cases mem⟩
    have count := Q.count at_p
    rw [now]
    simp only [all p (Q.mem_iff.mpr ⟨h, at_p⟩), decide_true, Option.some.injEq, Header.mk.injEq,
      List.count_nil, true_and, and_true]
    omega
  absent := fun p none => by rw [T.header p, none, Option.map_none]
  lists := T.lists
  zero := T.zero
  tmp := by
    intro p h at_p
    rw [T.tmp p h at_p]
    refine and_iff_right ?_
    obtain ⟨h₀, at_s, same⟩ := Option.map_eq_some_iff.mp ((T.header p).symm.trans at_p)
    rw [← same]
    simp [all p (Q.mem_iff.mpr ⟨h₀, at_s⟩)]
  reach := by
    intro p mem
    have both := T.lists.mem_iff.mp (List.mem_append_left _ mem)
    obtain ⟨h, at_p⟩ := Q.mem_iff.mp both
    have now := T.header p
    rw [at_p, Option.map_some] at now
    have away : p ∉ t.tmpObjList := fun mem' =>
      List.disjoint_of_nodup_append (T.distinct Q) mem mem'
    rw [T.tmp p _ now] at away
    simp only [all p both, decide_true, true_and] at away
    have count := Q.count at_p
    exact .root (List.count_pos_iff.mp (by omega))
  rest := T.rest

namespace Scan

theorem of_perm (S : Scan s seen rs t) (perm : rs.Perm cs) : Scan s seen cs t where
  header := fun p h at_p => by simpa only [perm.count_eq] using S.header p h at_p
  absent := S.absent
  lists := S.lists
  zero := S.zero
  tmp := S.tmp
  reach := S.reach
  rest := S.rest

theorem disjoint (S : Scan s seen rs t) (Q : Settled s) : List.Disjoint t.gcObjList t.tmpObjList :=
  List.disjoint_of_nodup_append (S.lists.nodup_iff.mpr Q.distinct)

/-- One reference given back: a header that had none is put at the end of the live ones. -/
theorem increfChild (S : Scan s seen rs t) (Q : Settled s) (F : Fits s)
    (reach : Reachable s.children s.handles c) (known : ∃ h, s.headers c = some h)
    (more : rs.count c < (heldBy s.children s.gcObjList).count c) :
    ∃ t', t.gcScanIncrefChild c = some t' ∧ Scan s seen (c :: rs) t' ∧
      t.gcObjList <+: t'.gcObjList := by
  obtain ⟨h₀, at_s⟩ := known
  have room := F.room Q at_s more
  obtain ⟨m, at_c, mark⟩ := S.header c h₀ at_s
  by_cases first : s.handles.count c + rs.count c = 0
  · have waits : c ∈ t.tmpObjList := (S.tmp c _ at_c).mpr (by simp only; omega)
    have away : c ∉ t.gcObjList := fun mem => S.disjoint Q mem waits
    let h₁ : Header := { h₀ with refCount := s.handles.count c + rs.count c + 1, mark := false }
    refine ⟨{ (t.put c h₁).unlink c with
      gcObjList := ((t.put c h₁).unlink c).gcObjList ++ [c] }, ?_, ?_, ?_⟩
    · have one : (s.handles.count c : Int) + rs.count c + 1 = 1 := by omega
      simp only [State.gcScanIncrefChild, at_c, Header.incref, room, if_true, Option.bind_some,
        if_pos one, h₁]
    · have list : ((t.put c h₁).unlink c).gcObjList = t.gcObjList := List.erase_of_not_mem away
      refine ⟨put_counts S.header at_s fun _ => rfl, put_absent S.absent at_s h₁, ?_, ?_, ?_, ?_,
        S.rest⟩
      · refine List.Perm.trans ?_ S.lists
        rw [list, List.append_assoc]
        exact (List.perm_append_left_iff _).mpr (List.perm_cons_erase waits).symm
      · simp [State.unlink, State.put, S.zero]
      · intro q h at_q
        by_cases eq : q = c
        · subst eq
          have same := Option.some.inj (at_q.symm.trans (State.put_self t q h₁))
          subst same
          have nodup := (List.nodup_append.mp (S.lists.nodup_iff.mpr Q.distinct)).2.1
          exact iff_of_false (fun mem => ((List.Nodup.mem_erase_iff nodup).mp mem).1 rfl)
            (by simp only [h₁]; omega)
        · have at_q' := (State.put_ne eq t h₁).symm.trans at_q
          rw [← S.tmp q h at_q']
          exact List.mem_erase_of_ne eq
      · intro q mem
        rw [list] at mem
        rcases List.mem_append.mp mem with old | new
        · exact S.reach q old
        · rwa [List.mem_singleton.mp new]
    · exact ⟨[c], by simp [State.unlink, State.put, List.erase_of_not_mem away]⟩
  · let h₁ : Header := { h₀ with refCount := s.handles.count c + rs.count c + 1, mark := m }
    refine ⟨t.put c h₁, ?_, ⟨put_counts S.header at_s mark, put_absent S.absent at_s h₁, S.lists,
      S.zero, ?_, S.reach, S.rest⟩, List.prefix_rfl⟩
    · have several : ¬ (s.handles.count c : Int) + rs.count c + 1 = 1 := by omega
      simp only [State.gcScanIncrefChild, at_c, Header.incref, room, if_true, Option.bind_some,
        if_neg several, h₁]
    · intro q h at_q
      by_cases eq : q = c
      · subst eq
        have same := Option.some.inj (at_q.symm.trans (State.put_self t q h₁))
        subst same
        have old := S.tmp q _ at_c
        have some_left : ¬ (s.handles.count q : Int) + rs.count q = 0 := by omega
        exact iff_of_false (fun mem => some_left (old.mp mem)) (by simp only [h₁]; omega)
      · exact S.tmp q h ((State.put_ne eq t h₁).symm.trans at_q)

theorem increfChildren (S : Scan s seen rs t) (Q : Settled s) (F : Fits s) (cs : List Address)
    (reach : ∀ c ∈ cs, Reachable s.children s.handles c)
    (known : ∀ c ∈ cs, ∃ h, s.headers c = some h)
    (room : ∀ c, (cs ++ rs).count c ≤ (heldBy s.children s.gcObjList).count c) :
    ∃ t', cs.foldlM State.gcScanIncrefChild t = some t' ∧ Scan s seen (cs ++ rs) t' ∧
      t.gcObjList <+: t'.gcObjList := by
  induction cs generalizing rs t with
  | nil => exact ⟨t, rfl, S, List.prefix_rfl⟩
  | cons c cs ih =>
    have perm : (cs ++ c :: rs).Perm (c :: cs ++ rs) := List.perm_middle
    obtain ⟨t₁, next, S₁, grow₁⟩ := S.increfChild Q F (reach c (by simp)) (known c (by simp)) (by
      have := room c
      simp only [List.cons_append, List.count_cons_self, List.count_append] at this
      omega)
    obtain ⟨t₂, run, S₂, grow₂⟩ := ih S₁ (fun d hd => reach d (by simp [hd]))
      (fun d hd => known d (by simp [hd])) (fun c => by rw [perm.count_eq]; exact room c)
    refine ⟨t₂, ?_, S₂.of_perm perm, grow₁.trans grow₂⟩
    rw [List.foldlM_cons, next]
    exact run

/-- The header under the cursor is visited. -/
theorem visit (S : Scan s seen rs t) (at_p : t.headers p = some h) :
    Scan s (seen ++ [p]) rs (t.put p { h with mark := false }) := by
  refine ⟨?_, ?_, S.lists, S.zero, ?_, S.reach, S.rest⟩
  · intro q hq at_q
    obtain ⟨m, now, mark⟩ := S.header q hq at_q
    by_cases eq : q = p
    · subst eq
      rw [at_p, Option.some.injEq] at now
      exact ⟨false, by rw [State.put_self, now], fun _ => rfl⟩
    · refine ⟨m, by rw [State.put_ne eq, now], fun mem => mark ?_⟩
      simpa [eq] using mem
  · intro q none
    have ne : q ≠ p := by
      rintro rfl
      have := S.absent q none
      rw [at_p] at this
      cases this
    rw [State.put_ne ne, S.absent q none]
  · intro q hq at_q
    by_cases eq : q = p
    · subst eq
      rw [State.put_self, Option.some.injEq] at at_q
      rw [← at_q]
      exact S.tmp q h at_p
    · rw [State.put_ne eq] at at_q
      exact S.tmp q hq at_q

theorem loop {fuel : Nat} (seen todo : List Address) (S : Scan s seen (heldBy s.children seen) t)
    (Q : Settled s) (F : Fits s) (split : t.gcObjList = seen ++ todo)
    (enough : s.gcObjList.length < fuel + seen.length) :
    ∃ t', State.gcScanLoop fuel seen.length t = some t' ∧
      Scan s t'.gcObjList (heldBy s.children t'.gcObjList) t' := by
  induction fuel generalizing seen todo t with
  | zero =>
    have := S.lists.length_eq
    rw [split] at this
    simp only [List.length_append] at this
    omega
  | succ fuel ih =>
    cases todo with
    | nil =>
      rw [List.append_nil] at split
      refine ⟨t, by simp [State.gcScanLoop, split], ?_⟩
      rwa [split]
    | cons p todo =>
      have mem : p ∈ t.gcObjList := by simp [split]
      have at_cursor : t.gcObjList[seen.length]? = some p := by simp [split]
      have alloc : p ∈ s.gcObjList := S.lists.mem_iff.mp (List.mem_append_left _ mem)
      obtain ⟨h₀, at_s⟩ := Q.mem_iff.mp alloc
      obtain ⟨m, at_p, -⟩ := S.header p h₀ at_s
      have away : p ∉ t.tmpObjList := fun mem' => S.disjoint Q mem mem'
      rw [S.tmp p _ at_p] at away
      have pos : (0 : Int) < s.handles.count p + (heldBy s.children seen).count p := by
        simp only at away
        omega
      have kids : s.children p = h₀.children := childrenIn_some at_s
      have room : ∀ c, (h₀.children ++ heldBy s.children seen).count c ≤
          (heldBy s.children s.gcObjList).count c := by
        intro c
        have all := (heldBy_perm s.children S.lists).count_eq c
        rw [split, heldBy_append, heldBy_append, heldBy_cons, kids] at all
        simp only [List.count_append] at all ⊢
        omega
      obtain ⟨t₁, run, S₁, grow⟩ := (S.visit at_p).increfChildren Q F h₀.children
        (fun c hc => .child (S.reach p mem) (by rwa [kids]))
        (fun c hc => Q.known (List.mem_append_right _
          (mem_heldBy.mpr ⟨p, alloc, by rwa [kids]⟩))) room
      obtain ⟨new, grown⟩ := grow
      have split₁ : t₁.gcObjList = (seen ++ [p]) ++ (todo ++ new) := by
        have same : (t.put p { h₀ with
          refCount := s.handles.count p + (heldBy s.children seen).count p,
          mark := false }).gcObjList = seen ++ p :: todo := split
        rw [← grown, same]
        simp
      have held : (h₀.children ++ heldBy s.children seen).Perm
          (heldBy s.children (seen ++ [p])) := by
        simp only [heldBy_append, heldBy_cons, heldBy_nil, List.append_nil, kids]
        exact List.perm_append_comm
      obtain ⟨t₂, rest, S₂⟩ :=
        ih (seen ++ [p]) (todo ++ new) (S₁.of_perm held) split₁ (by simp; omega)
      refine ⟨t₂, ?_, S₂⟩
      simp only [State.gcScanLoop, at_cursor, at_p, pos, if_true, run, Option.bind_some]
      rw [List.length_append, List.length_singleton] at rest
      exact rest

end Scan

/-- The references `rs` and those of `seen` are given back, the lists stay. -/
structure Restore (s : State) (rs : List Address) (t u : State) : Prop where
  header : ∀ p h, s.headers p = some h → ∃ m,
    u.headers p = some { h with refCount := s.handles.count p + rs.count p, mark := m } ∧
      (p ∈ t.gcObjList → m = false)
  absent : ∀ p, s.headers p = none → u.headers p = none
  rest : u = { t with headers := u.headers }

namespace Restore

variable {u : State}

theorem of_perm (S : Restore s rs t u) (perm : rs.Perm cs) : Restore s cs t u where
  header := fun p h at_p => by simpa only [perm.count_eq] using S.header p h at_p
  absent := S.absent
  rest := S.rest

theorem increfChild (S : Restore s rs t u) (Q : Settled s) (F : Fits s)
    (known : ∃ h, s.headers c = some h)
    (more : rs.count c < (heldBy s.children s.gcObjList).count c) :
    ∃ u', u.gcScanIncrefChild2 c = some u' ∧ Restore s (c :: rs) t u' := by
  obtain ⟨h₀, at_s⟩ := known
  have room := F.room Q at_s more
  obtain ⟨m, at_c, mark⟩ := S.header c h₀ at_s
  let h₁ : Header := { h₀ with refCount := s.handles.count c + rs.count c + 1, mark := m }
  refine ⟨u.put c h₁, ?_, put_counts S.header at_s mark, put_absent S.absent at_s h₁, ?_⟩
  · simp only [State.gcScanIncrefChild2, at_c, Header.incref, room, if_true, Option.map_some, h₁]
  · conv_lhs => rw [S.rest]
    rfl

theorem increfChildren (S : Restore s rs t u) (Q : Settled s) (F : Fits s) (cs : List Address)
    (known : ∀ c ∈ cs, ∃ h, s.headers c = some h)
    (room : ∀ c, (cs ++ rs).count c ≤ (heldBy s.children s.gcObjList).count c) :
    ∃ u', cs.foldlM State.gcScanIncrefChild2 u = some u' ∧ Restore s (cs ++ rs) t u' := by
  induction cs generalizing rs u with
  | nil => exact ⟨u, rfl, S⟩
  | cons c cs ih =>
    have perm : (cs ++ c :: rs).Perm (c :: cs ++ rs) := List.perm_middle
    obtain ⟨u₁, next, S₁⟩ := S.increfChild Q F (known c (by simp)) (by
      have := room c
      simp only [List.cons_append, List.count_cons_self, List.count_append] at this
      omega)
    obtain ⟨u₂, run, S₂⟩ := ih S₁ (fun d hd => known d (by simp [hd]))
      (fun c => by rw [perm.count_eq]; exact room c)
    refine ⟨u₂, ?_, S₂.of_perm perm⟩
    rw [List.foldlM_cons, next]
    exact run

theorem all (S : Restore s rs t u) (Q : Settled s) (F : Fits s) (todo : List Address)
    (sub : ∀ p ∈ todo, p ∈ s.gcObjList)
    (room : ∀ c, (heldBy s.children todo ++ rs).count c ≤
      (heldBy s.children s.gcObjList).count c) :
    ∃ u', todo.foldlM (fun u p => (u.children p).foldlM State.gcScanIncrefChild2 u) u = some u' ∧
      Restore s (heldBy s.children todo ++ rs) t u' := by
  induction todo generalizing rs u with
  | nil => exact ⟨u, rfl, by simpa using S⟩
  | cons p todo ih =>
    have mem := sub p (by simp)
    obtain ⟨h₀, at_s⟩ := Q.mem_iff.mp mem
    obtain ⟨m, at_p, -⟩ := S.header p h₀ at_s
    have kids : u.children p = s.children p :=
      (childrenIn_some at_p).trans (childrenIn_some at_s).symm
    have perm : (heldBy s.children todo ++ (s.children p ++ rs)).Perm
        (heldBy s.children (p :: todo) ++ rs) := by
      rw [heldBy_cons, ← List.append_assoc]
      exact List.perm_append_comm.append_right rs
    obtain ⟨u₁, next, S₁⟩ := S.increfChildren Q F (s.children p)
      (fun c hc => Q.known (List.mem_append_right _ (mem_heldBy.mpr ⟨p, mem, hc⟩))) (fun c => by
        have := room c
        rw [← perm.count_eq, List.count_append] at this
        omega)
    obtain ⟨u₂, run, S₂⟩ := ih S₁ (fun q hq => sub q (by simp [hq]))
      (fun c => by rw [perm.count_eq]; exact room c)
    refine ⟨u₂, ?_, S₂.of_perm perm⟩
    rw [List.foldlM_cons, kids, next]
    exact run

end Restore

/-- Behind `gc_scan`: every header as it was but for its mark, what is reachable from the
handles in the one list and the rest in the other. -/
structure Scanned (s t : State) : Prop where
  header : ∀ p h, s.headers p = some h → ∃ m, t.headers p = some { h with mark := m } ∧
    (p ∈ t.gcObjList → m = false)
  absent : ∀ p, s.headers p = none → t.headers p = none
  lists : (t.gcObjList ++ t.tmpObjList).Perm s.gcObjList
  zero : t.gcZeroRefCountList = []
  live : ∀ p, p ∈ t.gcObjList ↔ Reachable s.children s.handles p
  rest : t.handles = s.handles ∧ t.frames = s.frames ∧ t.gcPhase = s.gcPhase

theorem scanned (Q : Settled s) (F : Fits s) : ∃ t₁ t, s.gcDecref = some t₁ ∧
    t₁.gcScan = some t ∧ Scanned s t := by
  obtain ⟨t₁, done, decref, T, all⟩ := gcDecref_exact Q
  have enough : s.gcObjList.length < (t₁.allocated.length + 1) + ([] : List Address).length := by
    have := T.lists.length_eq
    simp only [List.length_append] at this
    simp only [State.allocated, T.zero, List.append_nil, List.length_append, List.length_nil]
    omega
  obtain ⟨t₂, loop, S⟩ := Scan.loop [] t₁.gcObjList (by simpa using T.scan Q all) Q F
    rfl enough
  have start : Restore s (heldBy s.children t₂.gcObjList) t₂ t₂ := ⟨S.header, S.absent, rfl⟩
  have total : ∀ p, (heldBy s.children t₂.tmpObjList ++ heldBy s.children t₂.gcObjList).count p =
      (heldBy s.children s.gcObjList).count p := by
    intro p
    have := (heldBy_perm s.children S.lists).count_eq p
    rw [heldBy_append, List.count_append] at this
    rw [List.count_append]
    omega
  obtain ⟨t₃, restore, R⟩ := start.all Q F t₂.tmpObjList
    (fun p mem => S.lists.mem_iff.mp (List.mem_append_right _ mem)) (fun p => (total p).le)
  have gcObj : t₃.gcObjList = t₂.gcObjList := by rw [R.rest]
  have tmp : t₃.tmpObjList = t₂.tmpObjList := by rw [R.rest]
  refine ⟨t₁, t₃, decref, ?_, ?_, R.absent, ?_, ?_, ?_, ?_⟩
  · simp only [State.gcScan]
    rw [show (0 : Nat) = ([] : List Address).length from rfl, loop]
    exact restore
  · intro p h at_p
    obtain ⟨m, now, mark⟩ := R.header p h at_p
    refine ⟨m, ?_, fun mem => mark (by rwa [← gcObj])⟩
    rw [now, total, ← Q.count at_p]
  · rw [gcObj, tmp]
    exact S.lists
  · rw [R.rest]
    exact S.zero
  · intro p
    rw [gcObj]
    refine ⟨S.reach p, fun reach => reach.within (S := fun p => p ∈ t₂.gcObjList) ?_ ?_⟩
    -- a header with a reference that was given back is not garbage
    all_goals
      have kept : ∀ p, 0 < s.handles.count p + (heldBy s.children t₂.gcObjList).count p →
          (∃ h, s.headers p = some h) → p ∈ t₂.gcObjList := by
        rintro p pos ⟨h, at_p⟩
        obtain ⟨m, now, -⟩ := S.header p h at_p
        have both := S.lists.mem_iff.mpr (Q.mem_iff.mpr ⟨h, at_p⟩)
        refine (List.mem_append.mp both).resolve_right (fun mem => ?_)
        have zero := (S.tmp p _ now).mp mem
        simp only at zero
        omega
    · intro r root
      have pos := List.count_pos_iff.mpr root
      exact kept r (by omega) (Q.known (List.mem_append_left _ root))
    · intro q mem c ref
      have pos := List.count_pos_iff.mpr (mem_heldBy.mpr ⟨q, mem, ref⟩)
      have alloc := S.lists.mem_iff.mp (List.mem_append_left _ mem)
      exact kept c (by omega)
        (Q.known (List.mem_append_right _ (mem_heldBy.mpr ⟨q, alloc, ref⟩)))
  · rw [R.rest]
    exact S.rest

end Gc
