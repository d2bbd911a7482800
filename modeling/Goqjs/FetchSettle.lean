import Goqjs.Fetches
import Mathlib.Data.List.Nodup

/-!
# Every fetch is settled once

The two handles of a fetch are in one place at a time: in `fm.pending`, in the
snapshot or the kept list of `ProcessPending`, in the hands of the loop body or
in the list that `Close` walks. A step moves them, and what has left has been
freed; the same balance without the entry being settled counts the calls.
-/

namespace Fetches

open Runs

variable {fm fm' : FetchManager} {a : Action} {ev log : List Event}

def Event.fetches (p : Nat) : Event → Bool
  | .fetched q => q == p
  | _ => false

def Event.calls (p : Nat) : Event → Bool
  | .called q _ _ => q == p
  | _ => false

def Event.frees (h : Handle) (p : Nat) : Event → Bool
  | .freed q k => q == p && k == h
  | _ => false

def fetched (log : List Event) (p : Nat) : Nat := log.countP (Event.fetches p)

/-- How often `resolve` or `reject` of `p` has been called. -/
def calls (log : List Event) (p : Nat) : Nat := log.countP (Event.calls p)

def frees (log : List Event) (h : Handle) (p : Nat) : Nat := log.countP (Event.frees h p)

theorem fetched_append (log ev : List Event) (p : Nat) :
    fetched (log ++ ev) p = fetched log p + fetched ev p := List.countP_append

theorem calls_append (log ev : List Event) (p : Nat) :
    calls (log ++ ev) p = calls log p + calls ev p := List.countP_append

theorem frees_append (log ev : List Event) (h : Handle) (p : Nat) :
    frees (log ++ ev) h p = frees log h p + frees ev h p := List.countP_append

/-- The entries whose handles are not freed. -/
def places (fm : FetchManager) : List Nat :=
  match fm.main with
  | .walking rest still _ => fm.pending ++ (rest ++ still)
  | .received p _ rest still => fm.pending ++ p :: (rest ++ still)
  | .settling p rest still => fm.pending ++ p :: (rest ++ still)
  | .closing rest => rest
  | _ => fm.pending

/-- The entries whose handles are not called; `Close` gives them up. -/
def waiting (fm : FetchManager) : List Nat :=
  match fm.main with
  | .walking rest still _ => fm.pending ++ (rest ++ still)
  | .received p _ rest still => fm.pending ++ p :: (rest ++ still)
  | .settling _ rest still => fm.pending ++ (rest ++ still)
  | _ => fm.pending

def Main.isOpen : Main → Bool
  | .closing _ => false
  | .closed => false
  | _ => true

/-- A new fetch joins the pending list wherever JavaScript runs. -/
theorem places_fetch (js : fm.main.runsJS = true) {fm' : FetchManager} {q : Nat}
    (pending : fm'.pending = fm.pending ++ [q]) (main : fm'.main = fm.main) (p : Nat) :
    (places fm').count p = (places fm).count p + [q].count p ∧
    (waiting fm').count p = (waiting fm).count p + [q].count p := by
  unfold places waiting
  rw [main, pending]
  cases at_ : fm.main with
  | idle => simp only [List.count_append, and_self]
  | received | settling => simp only [List.count_append]; omega
  | walking | closing | closed => rw [at_] at js; cases js

theorem fetched_singleton (p q : Nat) : fetched [.fetched q] p = [q].count p := by
  simp [fetched, List.count, Event.fetches]

/-- Handles are moved by a step or freed by it. -/
theorem Transition.moves (tr : Transition fm a fm' ev) (h : Handle) (p : Nat) :
    fetched ev p + (places fm).count p = (places fm').count p + frees ev h p := by
  cases tr
  case fetch js =>
    have none : frees [.fetched fm.fetches] h p = 0 := rfl
    rw [none, fetched_singleton, Nat.add_zero, Nat.add_comm]
    exact Eq.symm (And.left (places_fetch js (by rfl) (by rfl) p))
  case processBegin at_ _ =>
    rcases at_ with at_ | at_ <;>
      simp [fetched, frees, places, Event.fetches, Event.frees, at_]
  case release q _ _ at_ | closeNext q _ at_ =>
    simp only [fetched, frees, places, at_, List.countP_cons, List.countP_nil, Event.fetches,
      Event.frees, List.count_append, List.count_cons]
    cases h <;> simp <;> omega
  case receive at_ _ | settle at_ | processEnd at_ | closeBegin at_ | closeEnd at_ =>
    simp [fetched, frees, places, Event.fetches, Event.frees, at_]
  case keep at_ _ =>
    simp only [fetched, frees, places, at_, List.countP_nil, List.count_append, List.count_cons,
      List.count_nil]
    omega
  case finish body _ =>
    cases body <;> simp [fetched, frees, Event.fetches, Event.frees] <;> rfl
  all_goals
    simp [fetched, frees, Event.fetches, Event.frees]
    try rfl

/-- An entry leaves the waiting ones with the call of one of its handles. -/
theorem Transition.settles (tr : Transition fm a fm' ev) (open_ : fm'.main.isOpen = true) (p : Nat) :
    fetched ev p + (waiting fm).count p = (waiting fm').count p + calls ev p := by
  cases tr
  case fetch js =>
    have none : calls [.fetched fm.fetches] p = 0 := rfl
    rw [none, fetched_singleton, Nat.add_zero, Nat.add_comm]
    exact Eq.symm (And.right (places_fetch js (by rfl) (by rfl) p))
  case processBegin at_ _ =>
    rcases at_ with at_ | at_ <;>
      simp [fetched, calls, waiting, Event.fetches, Event.calls, at_]
  case settle q r _ _ at_ =>
    simp only [fetched, calls, waiting, at_, List.countP_cons, List.countP_nil, Event.fetches,
      Event.calls, List.count_append, List.count_cons]
    simp
    omega
  case receive at_ _ | release at_ | processEnd at_ =>
    simp [fetched, calls, waiting, Event.fetches, Event.calls, at_]
  case keep at_ _ =>
    simp only [fetched, calls, waiting, at_, List.countP_nil, List.count_append, List.count_cons,
      List.count_nil]
    omega
  case finish body _ =>
    cases body <;> simp [fetched, calls, Event.fetches, Event.calls] <;> rfl
  case closeBegin | closeNext | closeEnd => cases open_
  all_goals
    simp [fetched, calls, Event.fetches, Event.calls]
    try rfl

theorem fetched_pos_iff {p : Nat} : 0 < fetched log p ↔ .fetched p ∈ log := by
  rw [fetched, List.countP_pos_iff]
  constructor
  · rintro ⟨e, mem, h⟩
    cases e <;> simp [Event.fetches] at h
    exact h ▸ mem
  · exact fun mem => ⟨_, mem, by simp [Event.fetches]⟩

theorem frees_pos_iff {p : Nat} {h : Handle} : 0 < frees log h p ↔ .freed p h ∈ log := by
  rw [frees, List.countP_pos_iff]
  constructor
  · rintro ⟨e, mem, hp⟩
    cases e <;> simp [Event.frees] at hp
    obtain ⟨rfl, rfl⟩ := hp
    exact mem
  · exact fun mem => ⟨_, mem, by simp [Event.frees]⟩

theorem calls_pos_iff {p : Nat} : 0 < calls log p ↔ ∃ h r, .called p h r ∈ log := by
  rw [calls, List.countP_pos_iff]
  constructor
  · rintro ⟨e, mem, h⟩
    cases e <;> simp [Event.calls] at h
    subst h
    exact ⟨_, _, mem⟩
  · rintro ⟨h, r, mem⟩
    exact ⟨_, mem, by simp [Event.calls]⟩

/-- A handle is called in the loop body alone, as the received result says. -/
theorem Transition.called_mem (tr : Transition fm a fm' ev) {p : Nat} {h : Handle}
    {r : HttpResult} (mem : .called p h r ∈ ev) :
    ∃ rest still, fm.main = .received p r rest still ∧
      h = (if r.isError then .reject else .resolve) ∧ ev = [.called p h r] ∧
      fm'.main = .settling p rest still := by
  cases tr
  case finish body _ => cases body <;> simp at mem
  all_goals simp at mem
  case settle at_ =>
    obtain ⟨rfl, rfl, rfl⟩ := mem
    exact ⟨_, _, at_, rfl, rfl, rfl⟩

/-- The worker has sent its result on `done`. -/
def Worker.sentResult : Worker → Bool
  | .signalling _ => true
  | .returning _ => true
  | .returned => true
  | _ => false

theorem Worker.of_preparing {w : Worker} (h : w.preparing = true) :
    w ≠ .unset ∧ w.sentResult = false ∧ w.signalled = false := by
  cases w <;> simp [preparing, sentResult, signalled] at h ⊢

/-- Where every fetch, its handles and its result are. -/
structure Stored (fm : FetchManager) (log : List Event) : Prop where
  numbered : ∀ p, fetched log p = if p < fm.fetches then 1 else 0
  placed : ∀ h p, fetched log p = (places fm).count p + frees log h p
  waits : fm.main.isOpen = true → ∀ p, fetched log p = (waiting fm).count p + calls log p
  called : ∀ p, calls log p ≤ 1
  emptied : fm.main = .closed → fm.pending = []
  beyond : ∀ p, fm.fetches ≤ p → fm.workers p = .unset
  sender : ∀ p r, .delivered p r ∈ log → (fm.workers p).sentResult = true
  result : ∀ p r r', .delivered p r ∈ log → .delivered p r' ∈ log → r = r'
  buffered : ∀ p r, r ∈ (fm.done p).buffer → .delivered p r ∈ log
  received : ∀ p r rest still, fm.main = .received p r rest still → .delivered p r ∈ log

theorem Transition.fetches_eq (tr : Transition fm a fm' ev) (p : Nat) :
    (fm'.fetches = fm.fetches ∧ fetched ev p = 0) ∨
    (fm'.fetches = fm.fetches + 1 ∧ fetched ev p = if p = fm.fetches then 1 else 0) := by
  cases tr
  case fetch =>
    refine .inr ⟨rfl, ?_⟩
    rw [fetched_singleton]
    by_cases hp : p = fm.fetches
    · simp [hp]
    · simp [hp, Ne.symm hp]
  case finish body _ => exact .inl ⟨rfl, by cases body <;> rfl⟩
  all_goals exact .inl ⟨rfl, rfl⟩

/-- A worker changes by its own steps, or comes into being with its fetch. -/
theorem Transition.worker_origin (tr : Transition fm a fm' ev) (p : Nat) :
    fm'.workers p = fm.workers p ∨
    (p = fm.fetches ∧ fm'.fetches = fm.fetches + 1 ∧ fm'.workers p = .building) ∨
    (fm.workers p ≠ .unset ∧
      ((fm.workers p).sentResult = true → (fm'.workers p).sentResult = true) ∧
      ((fm.workers p).signalled = true → (fm'.workers p).signalled = true)) := by
  cases tr
  case fetch =>
    by_cases hp : p = fm.fetches
    · exact .inr (.inl ⟨hp, rfl, by simp [hp]⟩)
    · exact .inl (by simp [hp])
  case prepare q w before _ _ =>
    by_cases hp : p = q
    · subst hp
      obtain ⟨known, unsent, unsignalled⟩ := Worker.of_preparing before
      exact .inr (.inr ⟨known, by simp [unsent], by simp [unsignalled]⟩)
    · exact .inl (by simp [setWorker, hp])
  case deliver q _ _ _ at_ _ | signal q _ _ at_ _ | finish q _ at_ =>
    by_cases hp : p = q
    · subst hp
      exact .inr (.inr ⟨by rw [at_]; simp, fun _ => by simp [setWorker, Worker.sentResult],
        fun h => by simp_all [setWorker, Worker.signalled]⟩)
    · exact .inl (by simp [setWorker, hp])
  all_goals exact .inl rfl

theorem Transition.worker_kept (tr : Transition fm a fm' ev)
    (beyond : fm.workers fm.fetches = .unset) (p : Nat) :
    ((fm.workers p).sentResult = true → (fm'.workers p).sentResult = true) ∧
    ((fm.workers p).signalled = true → (fm'.workers p).signalled = true) := by
  rcases tr.worker_origin p with same | ⟨rfl, _⟩ | ⟨_, kept⟩
  · rw [same]
    exact ⟨fun h => h, fun h => h⟩
  · rw [beyond]
    exact ⟨(nomatch ·), (nomatch ·)⟩
  · exact kept

theorem Transition.delivered_mem (tr : Transition fm a fm' ev) {p : Nat} {r : HttpResult}
    (h : .delivered p r ∈ ev) :
    ev = [.delivered p r] ∧ (fm.workers p).sentResult = false ∧
      (fm'.workers p).sentResult = true := by
  cases tr
  case finish body _ => cases body <;> simp at h
  all_goals simp at h
  case deliver at_ _ =>
    obtain ⟨rfl, rfl⟩ := h
    exact ⟨rfl, by rw [at_]; rfl, by simp [setWorker, Worker.sentResult]⟩

theorem Transition.buffer_origin (tr : Transition fm a fm' ev) {p : Nat} {r : HttpResult}
    (h : r ∈ (fm'.done p).buffer) : r ∈ (fm.done p).buffer ∨ ev = [.delivered p r] := by
  cases tr
  case deliver q _ _ _ _ send =>
    by_cases hp : p = q
    · subst hp
      simp only [Function.update_self, (GoChan.send_eq_some.mp send).2, List.mem_append] at h
      rcases h with h | h
      · exact .inl h
      · exact .inr (by rw [List.mem_singleton.mp h])
    · exact .inl (by simpa [setWorker, hp] using h)
  case receive q _ _ _ _ _ _ recv =>
    by_cases hp : p = q
    · subst hp
      simp only [Function.update_self] at h
      exact .inl (by rw [GoChan.recv_eq_some.mp recv]; exact List.mem_cons_of_mem _ h)
    · exact .inl (by simpa [hp] using h)
  case closeNext q _ _ =>
    by_cases hp : p = q
    · subst hp
      simp [drain_buffer] at h
    · exact .inl (by simpa [hp] using h)
  all_goals exact .inl h

theorem Transition.received_origin (tr : Transition fm a fm' ev) {p : Nat} {r : HttpResult}
    {rest still : List Nat} (h : fm'.main = .received p r rest still) :
    fm.main = .received p r rest still ∨ r ∈ (fm.done p).buffer := by
  cases tr
  case receive recv =>
    cases h
    exact .inr (by rw [GoChan.recv_eq_some.mp recv]; exact List.mem_cons_self)
  all_goals first | exact .inl h | cases h

theorem Transition.open_before (tr : Transition fm a fm' ev) (open_ : fm'.main.isOpen = true)
    (emptied : fm.main = .closed → fm.pending = []) : fm.main.isOpen = true := by
  cases tr
  case processBegin at_ some =>
    rcases at_ with at_ | at_
    · rw [at_]; rfl
    · exact absurd (emptied at_) some
  case receive at_ _ | keep at_ _ | settle at_ | release at_ | processEnd at_ =>
    rw [at_]; rfl
  case closeBegin | closeNext | closeEnd => cases open_
  all_goals exact open_

theorem Transition.emptied_step (tr : Transition fm a fm' ev)
    (inv : fm.main = .closed → fm.pending = []) : fm'.main = .closed → fm'.pending = [] := by
  cases tr
  case fetch js =>
    intro h
    have h : fm.main = .closed := h
    rw [h] at js
    cases js
  case closeEnd => exact fun _ => rfl
  all_goals first | exact inv | exact fun h => nomatch h

/-- A worker that is past its delivery belongs to a fetch. -/
theorem Stored.fetched_of_sent (inv : Stored fm log) {p : Nat}
    (sent : (fm.workers p).sentResult = true) : fetched log p = 1 := by
  have known : p < fm.fetches := by
    by_contra h
    rw [inv.beyond p (Nat.le_of_not_lt h)] at sent
    cases sent
  rw [inv.numbered p, if_pos known]

theorem Stored.fetched_le (inv : Stored fm log) (p : Nat) : fetched log p ≤ 1 := by
  rw [inv.numbered p]
  split <;> omega

/-- An entry whose result has just been received has neither been called nor freed. -/
theorem Stored.received_fresh (inv : Stored fm log) {p : Nat} {r : HttpResult}
    {rest still : List Nat} (at_ : fm.main = .received p r rest still) :
    calls log p = 0 ∧ ∀ h, frees log h p = 0 := by
  have single := inv.fetched_le p
  have waits := inv.waits (by rw [at_]; rfl) p
  have here : 1 ≤ (waiting fm).count p ∧ 1 ≤ (places fm).count p := by
    simp only [waiting, places, at_, List.count_append, List.count_cons_self]
    omega
  refine ⟨by omega, fun h => ?_⟩
  have placed := inv.placed h p
  omega

theorem Stored.step (inv : Stored fm log) (tr : Transition fm a fm' ev) :
    Stored fm' (log ++ ev) where
  numbered := by
    intro p
    have old := inv.numbered p
    rw [fetched_append, old]
    rcases tr.fetches_eq p with ⟨same, none⟩ | ⟨next, one⟩
    · rw [same, none, Nat.add_zero]
    · rw [next, one]
      split <;> split <;> split <;> omega
  placed := by
    intro h p
    have old := inv.placed h p
    have moved := tr.moves h p
    rw [fetched_append, frees_append]
    omega
  waits := by
    intro open_ p
    have old := inv.waits (tr.open_before open_ inv.emptied) p
    have moved := tr.settles open_ p
    rw [fetched_append, calls_append]
    omega
  called := by
    intro p
    rw [calls_append]
    rcases Nat.eq_zero_or_pos (calls ev p) with none | some
    · rw [none]
      exact inv.called p
    · obtain ⟨h, r, mem⟩ := calls_pos_iff.mp some
      obtain ⟨rest, still, at_, _, hev, _⟩ := tr.called_mem mem
      have one : calls ev p = 1 := by simp [hev, calls, Event.calls]
      have uncalled := (inv.received_fresh at_).1
      omega
  emptied := tr.emptied_step inv.emptied
  beyond := by
    intro p h
    have le : fm.fetches ≤ p := by
      rcases tr.fetches_eq p with ⟨same, _⟩ | ⟨next, _⟩ <;> omega
    have unset := inv.beyond p le
    rcases tr.worker_origin p with same | ⟨hp, next, _⟩ | ⟨known, _, _⟩
    · exact same.trans unset
    · omega
    · exact absurd unset known
  sender := by
    intro p r h
    rcases List.mem_append.mp h with old | new
    · have beyond := inv.beyond fm.fetches (Nat.le_refl _)
      exact (tr.worker_kept beyond p).1 (inv.sender p r old)
    · exact (tr.delivered_mem new).2.2
  result := by
    intro p r r' h h'
    have fresh : ∀ x y, .delivered p x ∈ log → .delivered p y ∈ ev → x = y := by
      intro x y old new
      have unsent := (tr.delivered_mem new).2.1
      rw [inv.sender p x old] at unsent
      cases unsent
    rcases List.mem_append.mp h with old | new <;> rcases List.mem_append.mp h' with old' | new'
    · exact inv.result p r r' old old'
    · exact fresh r r' old new'
    · exact (fresh r' r old' new).symm
    · rw [(tr.delivered_mem new).1, List.mem_singleton] at new'
      cases new'
      rfl
  buffered := by
    intro p r h
    rcases tr.buffer_origin h with old | rfl
    · exact List.mem_append_left _ (inv.buffered p r old)
    · simp
  received := by
    intro p r rest still h
    rcases tr.received_origin h with old | mem
    · exact List.mem_append_left _ (inv.received p r rest still old)
    · exact List.mem_append_left _ (inv.buffered p r mem)

theorem stored_new : Stored newFetchManager [] := by
  constructor <;> simp [newFetchManager, fetched, calls, frees, places, waiting]

/-- How a handle may be used, given the history: `resolve` or `reject` is called once, as
the only result of the worker says and before either is freed; each is freed once. -/
structure UseAllowed (pre : List Event) (e : Event) : Prop where
  call : ∀ p h r, e = .called p h r → calls pre p = 0 ∧ (∀ k, frees pre k p = 0) ∧
    h = (if r.isError then .reject else .resolve) ∧
    .delivered p r ∈ pre ∧ ∀ r', .delivered p r' ∈ pre → r' = r
  free : ∀ p h, e = .freed p h → frees pre h p = 0

theorem Stored.uses (inv : Stored fm log) (tr : Transition fm a fm' ev)
    (old : Guarded UseAllowed log) : Guarded UseAllowed (log ++ ev) := by
  apply guarded_append old
  intro mid e post hev
  refine ⟨?_, ?_⟩
  · rintro p h r rfl
    have mem : Event.called p h r ∈ ev := by simp [hev]
    obtain ⟨rest, still, at_, handle, hev', _⟩ := tr.called_mem mem
    obtain rfl : mid = [] := by
      rw [hev'] at hev
      cases mid with
      | nil => rfl
      | cons x mid => simp at hev
    obtain ⟨uncalled, unfreed⟩ := inv.received_fresh at_
    have delivered := inv.received p r rest still at_
    rw [List.append_nil]
    exact ⟨uncalled, unfreed, handle, delivered, fun r' h' => inv.result p r' r h' delivered⟩
  · rintro p h rfl
    have placed := (inv.step tr).placed h p
    have single := (inv.step tr).fetched_le p
    have one : frees [Event.freed p h] h p = 1 := by simp [frees, Event.frees]
    have split : log ++ ev = (log ++ mid) ++ ([.freed p h] ++ post) := by simp [hev]
    rw [split, frees_append, frees_append [.freed p h], one] at placed
    rw [split] at single
    omega

theorem run_stored {as : List Action} (run : Run as fm log) :
    Stored fm log ∧ Guarded UseAllowed log := by
  refine exec_invariant_all (I := fun fm log => Stored fm log ∧ Guarded UseAllowed log) ?_
    ⟨stored_new, guarded_nil _⟩ run
  rintro s pre a t ev ⟨stored, uses⟩ hs
  have tr := step_transition hs
  exact ⟨stored.step tr, stored.uses tr uses⟩

/-- `places` holds each fetch that is not freed once; between the calls of
`ProcessPending` it is `fm.pending` and the fetches in it are those not settled. -/
structure SettledOnce (fm : FetchManager) (log : List Event) : Prop where
  uses : Guarded UseAllowed log
  nodup : (places fm).Nodup
  placed : ∀ p h, p ∈ places fm ↔ .fetched p ∈ log ∧ .freed p h ∉ log
  pending : fm.main = .idle → ∀ p, p ∈ fm.pending ↔ .fetched p ∈ log ∧ calls log p = 0
  drained : fm.main = .idle → hasPending fm = false → ∀ p, .fetched p ∈ log → calls log p = 1
  closed : fm.main = .closed → ∀ p h, .fetched p ∈ log → frees log h p = 1

theorem Stored.mem_places_iff (inv : Stored fm log) (p : Nat) (h : Handle) :
    p ∈ places fm ↔ .fetched p ∈ log ∧ .freed p h ∉ log := by
  have placed := inv.placed h p
  have single := inv.fetched_le p
  rw [← fetched_pos_iff, ← frees_pos_iff, ← List.count_pos_iff]
  omega

theorem Stored.mem_pending_iff (inv : Stored fm log) (idle : fm.main = .idle) (p : Nat) :
    p ∈ fm.pending ↔ .fetched p ∈ log ∧ calls log p = 0 := by
  have waits := inv.waits (by rw [idle]; rfl) p
  have here : waiting fm = fm.pending := by simp [waiting, idle]
  have single := inv.fetched_le p
  rw [here] at waits
  rw [← fetched_pos_iff, ← List.count_pos_iff]
  omega

/-- In every run each fetch is settled at most once, with its worker's result, its handles
are freed once and no fetch is lost. -/
theorem fetch_settled_once {as : List Action} (run : Run as fm log) : SettledOnce fm log := by
  obtain ⟨stored, uses⟩ := run_stored run
  refine ⟨uses, ?_, stored.mem_places_iff, stored.mem_pending_iff, ?_, ?_⟩
  · rw [List.nodup_iff_count_le_one]
    intro p
    have placed := stored.placed .resolve p
    have single := stored.fetched_le p
    omega
  · intro idle none p mem
    have empty : fm.pending = [] := by simpa [hasPending] using none
    have known := fetched_pos_iff.mpr mem
    have waits := stored.waits (by rw [idle]; rfl) p
    have here : (waiting fm).count p = 0 := by simp [waiting, idle, empty]
    have single := stored.fetched_le p
    omega
  · intro closed p h mem
    have known := fetched_pos_iff.mpr mem
    have placed := stored.placed h p
    have gone : (places fm).count p = 0 := by simp [places, closed, stored.emptied closed]
    have single := stored.fetched_le p
    omega

/-- One fetch is settled while another, made from its promise, stays for `Close`. -/
theorem fetch_settled_once_run : ∃ fm log,
    Run [.fetch (some "http://a"), .newRequest 0 (some "bad url"), .deliver 0, .processBegin,
      .examine, .fetch (some "http://b"), .settle, .release, .processEnd, .closeBegin, .closeNext,
      .closeEnd] fm log ∧
      .called 0 .reject (.failed "fetch error: bad url") ∈ log ∧ fm.main = .closed ∧
      SettledOnce fm log := by
  obtain ⟨fm, log, run, called, closed⟩ : ∃ fm log,
      Run [.fetch (some "http://a"), .newRequest 0 (some "bad url"), .deliver 0, .processBegin,
        .examine, .fetch (some "http://b"), .settle, .release, .processEnd, .closeBegin,
        .closeNext, .closeEnd] fm log ∧
      .called 0 .reject (.failed "fetch error: bad url") ∈ log ∧ fm.main = .closed :=
    ⟨_, _, rfl, by decide, rfl⟩
  exact ⟨fm, log, run, called, closed, fetch_settled_once run⟩

end Fetches
