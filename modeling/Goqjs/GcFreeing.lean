import Goqjs.GcHeaders

/-!
# Counts that stay exact while headers are freed

The references to a header are those held from outside, those that an unfinished call has
still to give up and those in the fields of the headers. Each way in which a frame changes
the heap keeps the count of every header at the number of references to it.
-/

namespace Gc

open ReferenceGraph

def Frame.refs : Frame → List Address
  | .freeRef c => [c]
  | _ => []

def Frame.finishes : Frame → List Address
  | .finish p => [p]
  | _ => []

/-- The references that the unfinished calls still hold. -/
def pending (fs : List Frame) : List Address := fs.flatMap Frame.refs

/-- The headers whose fields are given up and that are not freed yet. -/
def finishing (fs : List Frame) : List Address := fs.flatMap Frame.finishes

variable {H : Address → Option Header} {A A' R : List Address} {f : Frame} {fs k : List Frame}
  {p q c : Address} {h h' : Header}

@[simp] theorem pending_nil : pending [] = [] := by simp [pending]

@[simp] theorem pending_cons : pending (f :: k) = f.refs ++ pending k := by simp [pending]

@[simp] theorem pending_append : pending (fs ++ k) = pending fs ++ pending k := by
  simp [pending]

@[simp] theorem pending_freeRefs (cs : List Address) : pending (cs.map .freeRef) = cs := by
  induction cs with
  | nil => simp
  | cons c cs ih => simp [ih, Frame.refs]

@[simp] theorem finishing_nil : finishing [] = [] := by simp [finishing]

@[simp] theorem finishing_cons : finishing (f :: k) = f.finishes ++ finishing k := by
  simp [finishing]

@[simp] theorem finishing_append : finishing (fs ++ k) = finishing fs ++ finishing k := by
  simp [finishing]

@[simp] theorem finishing_freeRefs (cs : List Address) : finishing (cs.map .freeRef) = [] := by
  induction cs with
  | nil => simp
  | cons c cs ih => simp [ih, Frame.finishes]

/-- All the references there are. -/
def refs (H : Address → Option Header) (A R : List Address) (fs : List Frame) : List Address :=
  R ++ pending fs ++ heldBy (childrenIn H) A

theorem childrenIn_some (at_p : H p = some h) : childrenIn H p = h.children := by
  simp [childrenIn, at_p]

@[simp] theorem childrenIn_put_self :
    childrenIn (Function.update H p (some h)) p = h.children := by simp [childrenIn]

@[simp] theorem childrenIn_free_self : childrenIn (Function.update H p none) p = [] := by
  simp [childrenIn]

theorem childrenIn_update_ne (ne : q ≠ p) (x : Option Header) :
    childrenIn (Function.update H p x) q = childrenIn H q := by
  simp [childrenIn, ne]

/-- A header that keeps its fields. -/
theorem childrenIn_recount {g : Header} (at_p : H p = some h) (same : g.children = h.children) :
    childrenIn (Function.update H p (some g)) = childrenIn H := by
  funext q
  by_cases eq : q = p
  · subst eq
    rw [childrenIn_put_self, same, childrenIn_some at_p]
  · exact childrenIn_update_ne eq _

theorem refs_recount (at_p : H p = some h) (same : h'.children = h.children) :
    refs (Function.update H p (some h')) A R fs = refs H A R fs := by
  simp only [refs, childrenIn_recount at_p same]

theorem count_freeRef (q : Address) :
    (refs H A R (.freeRef c :: k)).count q = (refs H A R k).count q + if c = q then 1 else 0 := by
  simp only [refs, pending_cons, Frame.refs, List.count_append, List.count_singleton, beq_iff_eq]
  omega

/-- The references of a header that gives up its fields. -/
theorem heldBy_release {g : Header} (distinct : A.Nodup) (mem : p ∈ A) (at_p : H p = some h)
    (empty : g.children = []) :
    (heldBy (childrenIn (Function.update H p (some g))) A ++ h.children).Perm
      (heldBy (childrenIn H) A) := by
  have change := heldBy_change (childrenIn H)
    (childrenIn (Function.update H p (some g))) distinct mem
    (fun q _ ne => childrenIn_update_ne ne _)
  rwa [childrenIn_put_self, empty, childrenIn_some at_p, List.append_nil] at change

theorem count_release {g : Header} (distinct : A.Nodup) (mem : p ∈ A) (at_p : H p = some h)
    (empty : g.children = []) (q : Address) :
    (refs (Function.update H p (some g)) A R
      (h.children.map .freeRef ++ .finish p :: k)).count q = (refs H A R k).count q := by
  have change := (heldBy_release distinct mem at_p empty).count_eq q
  rw [List.count_append] at change
  simp only [refs, pending_append, pending_freeRefs, pending_cons, Frame.refs, List.nil_append,
    List.count_append]
  omega

/-- What holds of the heap between any two turns of the C code. -/
structure Sound (H : Address → Option Header) (A R : List Address) (fs : List Frame) : Prop where
  distinct : A.Nodup
  alloc : ∀ p, p ∈ A ↔ ∃ h, H p = some h
  counts : ∀ p h, H p = some h → h.refCount = (refs H A R fs).count p
  known : ∀ c ∈ refs H A R fs, c ∈ A
  typed : ∀ p h, H p = some h → ∀ c ∈ h.children, ∀ h', H c = some h' →
    h.gcObjType.mayRef h'.gcObjType = true
  once : (finishing fs).Nodup
  finish : ∀ p ∈ finishing fs, ∃ h, H p = some h ∧ h.freeMark = true
  given : ∀ p h, H p = some h → h.freeMark = true → h.children = []
  other : ∀ p h, H p = some h → h.gcObjType.isValue = false →
    if p ∈ finishing fs then h.refCount = 0 else 0 < h.refCount ∧ h.freeMark = false

namespace Sound

theorem refCount_pos (S : Sound H A R fs) (at_p : H p = some h) (ref : p ∈ refs H A R fs) :
    0 < h.refCount := by
  have pos := List.count_pos_iff.mpr ref
  rw [S.counts p h at_p]
  omega

theorem not_ref (S : Sound H A R fs) (at_p : H p = some h) (zero : h.refCount = 0) :
    p ∉ refs H A R fs := by
  intro ref
  have := S.refCount_pos at_p ref
  omega

theorem referenced (S : Sound H A R fs) (at_p : H p = some h) (pos : 0 < h.refCount) :
    p ∈ refs H A R fs := by
  rw [S.counts p h at_p] at pos
  exact List.count_pos_iff.mp (by omega)

theorem mem_of_header (S : Sound H A R fs) (at_p : H p = some h) : p ∈ A :=
  (S.alloc p).mpr ⟨h, at_p⟩

theorem child_ref (_S : Sound H A R fs) (mem : p ∈ A) (ref : c ∈ childrenIn H p) :
    c ∈ refs H A R fs :=
  List.mem_append_right _ (mem_heldBy.mpr ⟨p, mem, ref⟩)

theorem handle_ref (_S : Sound H A R fs) (mem : c ∈ R) : c ∈ refs H A R fs := by
  simp [refs, mem]

/-- Which list a header is in does not matter. -/
theorem of_perm (S : Sound H A R fs) (perm : A.Perm A') : Sound H A' R fs := by
  have same : ∀ c, (refs H A' R fs).count c = (refs H A R fs).count c := by
    intro c
    simp only [refs, List.count_append, (heldBy_perm (childrenIn H) perm).count_eq c]
  constructor
  case distinct => exact perm.nodup_iff.mp S.distinct
  case alloc => exact fun p => perm.symm.mem_iff.trans (S.alloc p)
  case counts => exact fun p h at_p => by rw [same, S.counts p h at_p]
  case known =>
    intro c ref
    rw [← List.count_pos_iff, same, List.count_pos_iff] at ref
    exact perm.mem_iff.mp (S.known c ref)
  all_goals first | exact S.typed | exact S.once | exact S.finish | exact S.given | exact S.other

/-- The marks of the collector do not matter. -/
theorem of_marks (S : Sound H A R fs) {H' : Address → Option Header}
    (header : ∀ p h, H p = some h → ∃ m, H' p = some { h with mark := m })
    (absent : ∀ p, H p = none → H' p = none) : Sound H' A R fs := by
  have old : ∀ p h', H' p = some h' → ∃ h m, H p = some h ∧ h' = { h with mark := m } := by
    intro p h' at_p
    cases before : H p with
    | none => simp [absent p before] at at_p
    | some h =>
      obtain ⟨m, now⟩ := header p h before
      exact ⟨h, m, rfl, Option.some.inj (at_p.symm.trans now)⟩
  have kids : childrenIn H' = childrenIn H := by
    funext p
    cases before : H p with
    | none => simp [childrenIn, absent p before, before]
    | some h =>
      obtain ⟨m, now⟩ := header p h before
      simp [childrenIn, now, before]
  have refs_eq : refs H' A R fs = refs H A R fs := by simp only [refs, kids]
  constructor
  case distinct => exact S.distinct
  case alloc =>
    intro p
    rw [S.alloc p]
    constructor
    · rintro ⟨h, at_p⟩
      obtain ⟨m, now⟩ := header p h at_p
      exact ⟨_, now⟩
    · rintro ⟨h', at_p⟩
      obtain ⟨h, m, before, -⟩ := old p h' at_p
      exact ⟨h, before⟩
  case counts =>
    intro p h' at_p
    obtain ⟨h, m, before, rfl⟩ := old p h' at_p
    rw [refs_eq]
    exact S.counts p h before
  case known => rw [refs_eq]; exact S.known
  case typed =>
    intro p h' at_p c ref h'' at_c
    obtain ⟨h, m, before, rfl⟩ := old p h' at_p
    obtain ⟨h₁, m₁, before₁, rfl⟩ := old c h'' at_c
    exact S.typed p h before c ref h₁ before₁
  case once => exact S.once
  case finish =>
    intro p mem
    obtain ⟨h, before, marked⟩ := S.finish p mem
    obtain ⟨m, now⟩ := header p h before
    exact ⟨_, now, marked⟩
  case given =>
    intro p h' at_p marked
    obtain ⟨h, m, before, rfl⟩ := old p h' at_p
    exact S.given p h before marked
  case other =>
    intro p h' at_p notValue
    obtain ⟨h, m, before, rfl⟩ := old p h' at_p
    exact S.other p h before notValue

/-- Frames that hold no reference and finish nothing come and go. -/
theorem of_frames (S : Sound H A R fs) (same : pending k = pending fs)
    (finishes : finishing k = finishing fs) : Sound H A R k := by
  have refs_eq : refs H A R k = refs H A R fs := by simp [refs, same]
  constructor
  case counts => simpa only [refs_eq] using S.counts
  case known => simpa only [refs_eq] using S.known
  case once => simpa only [finishes] using S.once
  case finish => simpa only [finishes] using S.finish
  case other => simpa only [finishes] using S.other
  all_goals first | exact S.distinct | exact S.alloc | exact S.typed | exact S.given

theorem exists_freeRef (S : Sound H A R (.freeRef c :: k)) : ∃ h, H c = some h :=
  (S.alloc c).mp (S.known c (by simp [refs, Frame.refs]))

theorem freeRef_pos (S : Sound H A R (.freeRef c :: k)) (at_c : H c = some h) :
    0 < h.refCount :=
  S.refCount_pos at_c (by simp [refs, Frame.refs])

/-- A reference is given up, and the header stays as it is or waits in a list. -/
theorem drop (S : Sound H A R (.freeRef c :: k)) (at_c : H c = some h)
    (keep : h.gcObjType.isValue = true ∨ h.refCount ≠ 1) :
    Sound (Function.update H c (some { h with refCount := h.refCount - 1 })) A R k := by
  have less := S.freeRef_pos at_c
  have refs_eq : refs (Function.update H c (some { h with refCount := h.refCount - 1 })) A R k =
      refs H A R k := refs_recount at_c rfl
  have mem_refs : ∀ q, q ∈ refs H A R k → q ∈ refs H A R (.freeRef c :: k) := by
    intro q
    simp only [← List.count_pos_iff, count_freeRef]
    omega
  have old : ∀ q hq, Function.update H c (some { h with refCount := h.refCount - 1 }) q = some hq →
      ∃ hq', H q = some hq' ∧ hq'.gcObjType = hq.gcObjType ∧ hq'.children = hq.children ∧
        hq'.freeMark = hq.freeMark ∧ hq.refCount = hq'.refCount - if c = q then 1 else 0 := by
    intro q hq at_q
    by_cases eq : q = c
    · subst eq
      simp only [Function.update_self, Option.some.injEq] at at_q
      subst at_q
      exact ⟨h, at_c, rfl, rfl, rfl, by simp⟩
    · rw [Function.update_of_ne eq] at at_q
      exact ⟨hq, at_q, rfl, rfl, rfl, by simp [Ne.symm eq]⟩
  constructor
  case distinct => exact S.distinct
  case alloc =>
    intro p
    rw [S.alloc p]
    by_cases eq : p = c
    · subst eq; simp [at_c]
    · simp [eq]
  case counts =>
    intro q hq at_q
    obtain ⟨hq', at_q', -, -, -, count⟩ := old q hq at_q
    have before := S.counts q hq' at_q'
    rw [count_freeRef] at before
    rw [refs_eq, count, before]
    split_ifs <;> omega
  case known =>
    intro q ref
    rw [refs_eq] at ref
    exact S.known q (mem_refs q ref)
  case typed =>
    intro q hq at_q d ref hd at_d
    obtain ⟨hq', at_q', type_q, kids, -⟩ := old q hq at_q
    obtain ⟨hd', at_d', type_d, -⟩ := old d hd at_d
    rw [← type_q, ← type_d]
    exact S.typed q hq' at_q' d (by rw [kids]; exact ref) hd' at_d'
  case once => simpa [Frame.finishes] using S.once
  case finish =>
    intro q mem
    obtain ⟨hq, at_q, marked⟩ := S.finish q (by simpa [Frame.finishes] using mem)
    by_cases eq : q = c
    · subst eq
      rw [at_c, Option.some.injEq] at at_q
      subst at_q
      exact ⟨_, Function.update_self .., marked⟩
    · exact ⟨hq, by rw [Function.update_of_ne eq]; exact at_q, marked⟩
  case given =>
    intro q hq at_q marked
    obtain ⟨hq', at_q', -, kids, mark, -⟩ := old q hq at_q
    rw [← kids]
    exact S.given q hq' at_q' (mark.trans marked)
  case other =>
    intro q hq at_q notValue
    obtain ⟨hq', at_q', type_q, -, mark, count⟩ := old q hq at_q
    have before := S.other q hq' at_q' (type_q ▸ notValue)
    simp only [finishing_cons, Frame.finishes, List.nil_append] at before
    by_cases eq : c = q
    · subst eq
      rw [at_c, Option.some.injEq] at at_q'
      subst at_q'
      have many : h.refCount ≠ 1 := keep.resolve_left (by simp [type_q, notValue])
      rw [if_pos rfl] at count
      split_ifs at before ⊢ with fin
      · omega
      · exact ⟨by omega, mark ▸ before.2⟩
    · rw [if_neg eq] at count
      simp only [← mark, count, sub_zero]
      exact before

/-- The fields of a header are given up: `d` is 1 where this frees a reference to it. -/
theorem release (S : Sound H A R fs) (at_p : H p = some h) (d : Nat)
    (given_up : ∀ q, (refs H A R fs).count q =
      (refs H A R k).count q + if p = q then d else 0)
    (same : finishing fs = finishing k) (fresh : p ∉ finishing k)
    (zero : h.gcObjType.isValue = false → h.refCount = d) :
    Sound (Function.update H p
      (some { h with refCount := h.refCount - d, freeMark := true, children := [] })) A R
      (h.children.map .freeRef ++ .finish p :: k) := by
  have mem := S.mem_of_header at_p
  have finishing_eq : finishing (h.children.map .freeRef ++ .finish p :: k) = p :: finishing k := by
    simp [Frame.finishes]
  have count := fun q => count_release (R := R) (k := k)
    (g := { h with refCount := h.refCount - d, freeMark := true, children := [] })
    S.distinct mem at_p rfl q
  constructor
  case distinct => exact S.distinct
  case alloc =>
    intro q
    rw [S.alloc q]
    by_cases eq : q = p
    · subst eq; simp [at_p]
    · simp [eq]
  case counts =>
    intro q hq at_q
    rw [count]
    have before := given_up q
    by_cases eq : q = p
    · subst eq
      simp only [Function.update_self, Option.some.injEq] at at_q
      subst at_q
      simp only [if_pos] at before
      simp only [S.counts q h at_p, before]
      omega
    · rw [Function.update_of_ne eq] at at_q
      rw [S.counts q hq at_q, before, if_neg (Ne.symm eq), Nat.add_zero]
  case known =>
    intro q ref
    apply S.known
    rw [← List.count_pos_iff] at ref ⊢
    have := given_up q
    rw [count] at ref
    omega
  case typed =>
    intro q hq at_q c ref hc at_c
    by_cases eq : q = p
    · subst eq
      simp only [Function.update_self, Option.some.injEq] at at_q
      subst at_q
      cases ref
    · rw [Function.update_of_ne eq] at at_q
      by_cases eq' : c = p
      · subst eq'
        simp only [Function.update_self, Option.some.injEq] at at_c
        subst at_c
        exact S.typed q hq at_q c ref h at_p
      · rw [Function.update_of_ne eq'] at at_c
        exact S.typed q hq at_q c ref hc at_c
  case once =>
    rw [finishing_eq]
    exact List.nodup_cons.mpr ⟨fresh, same ▸ S.once⟩
  case finish =>
    intro q mem
    by_cases eq : q = p
    · subst eq
      exact ⟨_, Function.update_self .., rfl⟩
    · have old : q ∈ finishing k := by
        rw [finishing_eq] at mem
        exact (List.mem_cons.mp mem).resolve_left eq
      rw [Function.update_of_ne eq]
      exact S.finish q (same ▸ old)
  case given =>
    intro q hq at_q marked
    by_cases eq : q = p
    · subst eq
      simp only [Function.update_self, Option.some.injEq] at at_q
      subst at_q
      rfl
    · rw [Function.update_of_ne eq] at at_q
      exact S.given q hq at_q marked
  case other =>
    intro q hq at_q notValue
    by_cases eq : q = p
    · subst eq
      simp only [Function.update_self, Option.some.injEq] at at_q
      subst at_q
      rw [if_pos (by simp [finishing_eq])]
      simp only [zero notValue, sub_self]
    · rw [Function.update_of_ne eq] at at_q
      have before := S.other q hq at_q notValue
      rw [same] at before
      rw [finishing_eq]
      simp only [List.mem_cons, eq, false_or]
      exact before

/-- The last reference to a header that is not a value frees its fields. -/
theorem release_last (S : Sound H A R (.freeRef p :: k)) (at_p : H p = some h)
    (notValue : h.gcObjType.isValue = false) (last : h.refCount = 1) :
    Sound (Function.update H p
      (some { h with refCount := h.refCount - 1, freeMark := true, children := [] })) A R
      (h.children.map .freeRef ++ .finish p :: k) := by
  have fresh : p ∉ finishing k := by
    intro mem
    have := S.other p h at_p notValue
    rw [if_pos (by simpa [Frame.finishes] using mem)] at this
    omega
  exact S.release at_p 1 count_freeRef (by simp [Frame.finishes]) fresh (fun _ => last)

/-- A value whose turn has come gives up its fields. -/
theorem release_value (S : Sound H A R k) (at_p : H p = some h)
    (value : h.gcObjType.isValue = true) (unmarked : h.freeMark = false) :
    Sound (Function.update H p (some { h with freeMark := true, children := [] })) A R
      (h.children.map .freeRef ++ .finish p :: k) := by
  have fresh : p ∉ finishing k := by
    intro mem
    obtain ⟨h', at_p', marked⟩ := S.finish p mem
    rw [at_p, Option.some.injEq] at at_p'
    rw [← at_p', unmarked] at marked
    cases marked
  have released := S.release (k := k) at_p 0 (by simp) rfl fresh (by simp [value])
  simpa using released

/-- A header that nothing refers to is freed. -/
theorem free (S : Sound H A R (.finish p :: k)) (at_p : H p = some h)
    (zero : h.refCount = 0) : Sound (Function.update H p none) (A.erase p) R k := by
  obtain ⟨h₀, at_p₀, marked⟩ := S.finish p (by simp [Frame.finishes])
  rw [at_p, Option.some.injEq] at at_p₀
  subst at_p₀
  have empty : childrenIn H p = [] := by rw [childrenIn_some at_p, S.given p h at_p marked]
  have mem := S.mem_of_header at_p
  have once := S.once
  simp only [finishing_cons, Frame.finishes, List.singleton_append, List.nodup_cons] at once
  have count : ∀ q, (refs (Function.update H p none) (A.erase p) R k).count q =
      (refs H A R (.finish p :: k)).count q := by
    intro q
    have rest : heldBy (childrenIn (Function.update H p none)) (A.erase p) =
        heldBy (childrenIn H) (A.erase p) := by
      apply heldBy_congr
      intro r hr
      exact childrenIn_update_ne ((List.Nodup.mem_erase_iff S.distinct).mp hr).1 _
    have split := (heldBy_erase (childrenIn H) mem).count_eq q
    rw [empty, List.nil_append] at split
    simp only [refs, rest, List.count_append, pending_cons, Frame.refs, List.nil_append, split]
  have gone := S.not_ref at_p zero
  have away : ∀ {q hq}, Function.update H p none q = some hq → q ≠ p ∧ H q = some hq := by
    intro q hq at_q
    by_cases eq : q = p
    · simp [eq] at at_q
    · exact ⟨eq, by rw [Function.update_of_ne eq] at at_q; exact at_q⟩
  constructor
  case distinct => exact S.distinct.erase p
  case alloc =>
    intro q
    rw [List.Nodup.mem_erase_iff S.distinct, S.alloc q]
    by_cases eq : q = p
    · subst eq; simp
    · simp [eq]
  case counts =>
    intro q hq at_q
    rw [count, S.counts q hq (away at_q).2]
  case known =>
    intro q ref
    have ref' : q ∈ refs H A R (.finish p :: k) := by
      rw [← List.count_pos_iff] at ref ⊢
      rwa [← count]
    have ne : q ≠ p := fun eq => gone (eq ▸ ref')
    exact (List.Nodup.mem_erase_iff S.distinct).mpr ⟨ne, S.known q ref'⟩
  case typed =>
    intro q hq at_q c ref hc at_c
    exact S.typed q hq (away at_q).2 c ref hc (away at_c).2
  case once => exact once.2
  case finish =>
    intro q hq
    have ne : q ≠ p := fun eq => once.1 (eq ▸ hq)
    rw [Function.update_of_ne ne]
    exact S.finish q (by simp [Frame.finishes, hq])
  case given => exact fun q hq at_q => S.given q hq (away at_q).2
  case other =>
    intro q hq at_q notValue
    have before := S.other q hq (away at_q).2 notValue
    simpa [Frame.finishes, (away at_q).1] using before

/-- A value freed with a cycle stays until the end. -/
theorem keep (S : Sound H A R (.finish p :: k)) (at_p : H p = some h)
    (value : h.gcObjType.isValue = true) : Sound H A R k := by
  have refs_eq : refs H A R k = refs H A R (.finish p :: k) := by simp [refs, Frame.refs]
  have once := S.once
  simp only [finishing_cons, Frame.finishes, List.singleton_append, List.nodup_cons] at once
  constructor
  case counts => simpa only [refs_eq] using S.counts
  case known => simpa only [refs_eq] using S.known
  case once => exact once.2
  case finish => exact fun q hq => S.finish q (by simp [Frame.finishes, hq])
  case other =>
    intro q hq at_q notValue
    have ne : q ≠ p := by
      rintro rfl
      rw [at_p, Option.some.injEq] at at_q
      subst at_q
      rw [value] at notValue
      cases notValue
    simpa [Frame.finishes, ne] using S.other q hq at_q notValue
  all_goals first | exact S.distinct | exact S.alloc | exact S.typed | exact S.given

/-- Headers that nothing refers to and that have given up their fields are freed together. -/
theorem free_all {L Z : List Address} (S : Sound H (L ++ Z) R [])
    (away : ∀ c ∈ refs H (L ++ Z) R [], c ∈ L) (empty : ∀ p ∈ Z, childrenIn H p = []) :
    Sound (fun p => if p ∈ Z then none else H p) L R [] := by
  obtain ⟨distinct, -, apart⟩ := List.nodup_append.mp S.distinct
  have old : ∀ {p h}, (if p ∈ Z then none else H p) = some h → p ∉ Z ∧ H p = some h := by
    intro p h at_p
    by_cases mem : p ∈ Z
    · simp [mem] at at_p
    · exact ⟨mem, by simpa [mem] using at_p⟩
  have outside : ∀ p ∈ L, p ∉ Z := fun p mem hp => apart p mem p hp rfl
  have kept : heldBy (childrenIn fun p => if p ∈ Z then none else H p) L =
      heldBy (childrenIn H) L := by
    apply heldBy_congr
    intro p mem
    simp [childrenIn, outside p mem]
  have none_held : heldBy (childrenIn H) Z = [] := List.flatMap_eq_nil_iff.mpr empty
  have refs_eq : refs (fun p => if p ∈ Z then none else H p) L R [] = refs H (L ++ Z) R [] := by
    simp only [refs, kept, heldBy_append, none_held, List.append_nil]
  constructor
  case distinct => exact distinct
  case alloc =>
    intro p
    constructor
    · intro mem
      obtain ⟨h, at_p⟩ := (S.alloc p).mp (List.mem_append_left _ mem)
      exact ⟨h, by simp [outside p mem, at_p]⟩
    · rintro ⟨h, at_p⟩
      obtain ⟨absent, at_p⟩ := old at_p
      exact (List.mem_append.mp (S.mem_of_header at_p)).resolve_right absent
  case counts =>
    intro p h at_p
    rw [refs_eq, S.counts p h (old at_p).2]
  case known =>
    intro c ref
    rw [refs_eq] at ref
    exact away c ref
  case typed => exact fun p h at_p c ref h' at_c => S.typed p h (old at_p).2 c ref h' (old at_c).2
  case once => exact S.once
  case finish => exact fun p mem => absurd mem (by simp)
  case given => exact fun p h at_p => S.given p h (old at_p).2
  case other => exact fun p h at_p => S.other p h (old at_p).2

end Sound

end Gc
