import Goqjs.FetchSettle

/-!
# Tokens on `fm.notify`

A worker delivers its result before it sends its token, and the event loop takes
a token before it examines the entries. So an unexamined result always has its
token ahead of it: not yet sent, in the channel, or taken by a loop that has
still to reach the entry.
-/

namespace Fetches

open Runs

variable {fm fm' : FetchManager} {a : Action} {ev log : List Event}

/-- The loop has taken a token and not finished the `ProcessPending` after it. -/
def Woken (log : List Event) : Prop :=
  ∃ pre post, log = pre ++ .tokenTaken :: post ∧ ∀ b, .processed b ∉ post

theorem woken_append (quiet : ∀ b, .processed b ∉ ev) (h : Woken log) : Woken (log ++ ev) := by
  obtain ⟨pre, post, rfl, open_⟩ := h
  refine ⟨pre, post ++ ev, by simp, fun b mem => ?_⟩
  rcases List.mem_append.mp mem with mem | mem
  · exact open_ b mem
  · exact quiet b mem

def Event.receives (p : Nat) : Event → Bool
  | .received q => q == p
  | _ => false

def receipts (log : List Event) (p : Nat) : Nat := log.countP (Event.receives p)

theorem receipts_append (log ev : List Event) (p : Nat) :
    receipts (log ++ ev) p = receipts log p + receipts ev p := List.countP_append

theorem receipts_pos_iff {p : Nat} : 0 < receipts log p ↔ .received p ∈ log := by
  rw [receipts, List.countP_pos_iff]
  constructor
  · rintro ⟨e, mem, h⟩
    cases e <;> simp [Event.receives] at h
    exact h ▸ mem
  · exact fun mem => ⟨_, mem, by simp [Event.receives]⟩

/-- What `ProcessPending` has still to examine. -/
def Main.snapshot : Main → List Nat
  | .walking rest _ _ => rest
  | .received _ _ rest _ => rest
  | .settling _ rest _ => rest
  | _ => []

def Main.stillPending : Main → List Nat
  | .walking _ still _ => still
  | .received _ _ _ still => still
  | .settling _ _ still => still
  | _ => []

/-- The entries whose result is not received. -/
def listed (fm : FetchManager) : List Nat :=
  fm.pending ++ (fm.main.snapshot ++ fm.main.stillPending)

theorem Transition.examines (tr : Transition fm a fm' ev) (open_ : fm'.main.isOpen = true)
    (p : Nat) : fetched ev p + (listed fm).count p = (listed fm').count p + receipts ev p := by
  cases tr
  case fetch js =>
    rw [fetched_singleton]
    simp only [listed, receipts, Event.receives, List.countP_cons, List.countP_nil,
      List.count_append]
    simp
    omega
  case processBegin at_ _ =>
    rcases at_ with at_ | at_ <;>
      simp [fetched, receipts, listed, Main.snapshot, Main.stillPending, Event.fetches,
        Event.receives, at_]
  case receive q _ _ _ _ _ at_ _ =>
    simp only [fetched, receipts, listed, Main.snapshot, Main.stillPending, at_, List.countP_cons,
      List.countP_nil, Event.fetches, Event.receives, List.count_append, List.count_cons]
    simp
    omega
  case settle at_ | release at_ | processEnd at_ =>
    simp [fetched, receipts, listed, Main.snapshot, Main.stillPending, Event.fetches,
      Event.receives, at_]
  case keep at_ _ =>
    simp only [fetched, receipts, listed, Main.snapshot, Main.stillPending, at_, List.countP_nil,
      List.count_append, List.count_cons, List.count_nil]
    omega
  case finish body _ =>
    cases body <;> simp [fetched, receipts, Event.fetches, Event.receives] <;> rfl
  case closeBegin | closeNext | closeEnd => cases open_
  all_goals
    simp [fetched, receipts, Event.fetches, Event.receives]
    try rfl

/-- What a step of an open manager does to the channel of one fetch. -/
theorem Transition.buffer_cases (tr : Transition fm a fm' ev) (open_ : fm'.main.isOpen = true)
    (beyond : fm.workers fm.fetches = .unset) (p : Nat) :
    (∃ r, ev = [.delivered p r] ∧ (fm.workers p).sentResult = false ∧
      (fm'.workers p).sentResult = true ∧ (fm'.done p).buffer ≠ []) ∨
    (ev = [.received p] ∧ (fm'.done p).buffer = []) ∨
    (fm'.done p = fm.done p ∧ (fm'.workers p).sentResult = (fm.workers p).sentResult ∧
      .received p ∉ ev) := by
  cases tr
  case fetch =>
    refine .inr (.inr ⟨rfl, ?_, by simp⟩)
    by_cases hp : p = fm.fetches
    · simp [hp, beyond, Worker.sentResult]
    · simp [hp]
  case prepare q w before after _ =>
    refine .inr (.inr ⟨rfl, ?_, by simp⟩)
    by_cases hp : p = q
    · subst hp
      have unsent : w.sentResult = false := by
        rcases after with after | ⟨_, _, rfl⟩
        · exact (Worker.of_preparing after).2.1
        · rfl
      simp [setWorker, unsent, (Worker.of_preparing before).2.1]
    · simp [setWorker, hp]
  case deliver q body r ch at_ send =>
    by_cases hp : p = q
    · subst hp
      exact .inl ⟨r, rfl, by rw [at_]; rfl, by simp [setWorker, Worker.sentResult],
        by simp [(GoChan.send_eq_some.mp send).2]⟩
    · exact .inr (.inr ⟨by simp [hp], by simp [setWorker, hp], by simp⟩)
  case signal q _ _ at_ _ =>
    refine .inr (.inr ⟨rfl, ?_, by simp⟩)
    by_cases hp : p = q
    · subst hp
      simp [setWorker, at_, Worker.sentResult]
    · simp [setWorker, hp]
  case finish q body at_ =>
    refine .inr (.inr ⟨rfl, ?_, by cases body <;> simp⟩)
    by_cases hp : p = q
    · subst hp
      simp [setWorker, at_, Worker.sentResult]
    · simp [setWorker, hp]
  case receive q _ _ _ _ ch at_ recv =>
    by_cases hp : p = q
    · subst hp
      have held := GoChan.recv_eq_some.mp recv
      have one := (fm.done p).bounded
      rw [held] at one
      exact .inr (.inl ⟨rfl, by simpa using one⟩)
    · exact .inr (.inr ⟨by simp [hp], rfl, by simp [hp]⟩)
  case closeBegin | closeNext | closeEnd => cases open_
  all_goals exact .inr (.inr ⟨rfl, rfl, by simp⟩)

theorem Transition.received_mem (tr : Transition fm a fm' ev) {p : Nat}
    (h : .received p ∈ ev) : fm.main.isOpen = true ∧ (fm.done p).buffer ≠ [] := by
  cases tr
  case finish body _ => cases body <;> simp at h
  all_goals simp at h
  case receive at_ recv =>
    subst h
    exact ⟨by rw [at_]; rfl, by rw [GoChan.recv_eq_some.mp recv]; simp⟩

/-- A worker sends its token only once, on the channel. -/
theorem Transition.unsignalled_kept (tr : Transition fm a fm' ev) {p : Nat}
    (h : (fm.workers p).signalled = false) :
    (fm'.workers p).signalled = false ∧ .signalled p ∉ ev ∨ fm'.notify.buffer ≠ [] := by
  cases tr
  case fetch =>
    refine .inl ⟨?_, by simp⟩
    by_cases hp : p = fm.fetches
    · simp [hp, Worker.signalled]
    · simpa [hp] using h
  case prepare q w _ after _ =>
    refine .inl ⟨?_, by simp⟩
    by_cases hp : p = q
    · subst hp
      rcases after with after | ⟨_, _, rfl⟩
      · simp [setWorker, (Worker.of_preparing after).2.2]
      · simp [setWorker, Worker.signalled]
    · simpa [setWorker, hp] using h
  case deliver q _ _ _ _ _ =>
    refine .inl ⟨?_, by simp⟩
    by_cases hp : p = q
    · simp [setWorker, hp, Worker.signalled]
    · simpa [setWorker, hp] using h
  case signal send => exact .inr (by simp [(GoChan.send_eq_some.mp send).2])
  case finish q body at_ =>
    refine .inl ⟨?_, by cases body <;> simp⟩
    have hp : p ≠ q := by
      rintro rfl
      rw [at_] at h
      cases h
    simpa [setWorker, hp] using h
  all_goals exact .inl ⟨h, by simp⟩

/-- A token leaves the channel for the loop alone. -/
theorem Transition.token_kept (tr : Transition fm a fm' ev) (open_ : fm'.main.isOpen = true)
    (h : fm.notify.buffer ≠ []) :
    fm'.notify.buffer ≠ [] ∨ ev = [.tokenTaken] ∧ fm'.main = .idle := by
  cases tr
  case signal send => exact .inl (by simp [(GoChan.send_eq_some.mp send).2])
  case takeToken at_ _ =>
    rcases at_ with at_ | at_
    · exact .inr ⟨rfl, at_⟩
    · have open_ : fm.main.isOpen = true := open_
      rw [at_] at open_
      cases open_
  all_goals exact .inl h

/-- A woken loop still has every unexamined result before it. -/
theorem Transition.ahead_kept (tr : Transition fm a fm' ev) (open_ : fm'.main.isOpen = true)
    {p : Nat} (ahead : fm.main = .idle ∨ p ∈ fm.main.snapshot) (mem : p ∈ listed fm)
    (full : (fm.done p).buffer ≠ []) :
    .received p ∈ ev ∨ (∀ b, .processed b ∉ ev) ∧ (fm'.main = .idle ∨ p ∈ fm'.main.snapshot) := by
  cases tr
  case processNothing at_ empty =>
    rcases at_ with at_ | at_ <;>
      simp [listed, at_, empty, Main.snapshot, Main.stillPending] at mem
  case processBegin at_ _ =>
    refine .inr ⟨by simp, .inr ?_⟩
    rcases at_ with at_ | at_ <;>
      simpa [listed, at_, Main.snapshot, Main.stillPending] using mem
  case receive q rest _ _ _ _ at_ _ =>
    rw [at_] at ahead
    rcases ahead with ahead | ahead
    · cases ahead
    · rcases List.mem_cons.mp ahead with rfl | ahead
      · exact .inl (by simp)
      · exact .inr ⟨by simp, .inr ahead⟩
  case keep q rest _ _ at_ empty =>
    rw [at_] at ahead
    rcases ahead with ahead | ahead
    · cases ahead
    · rcases List.mem_cons.mp ahead with rfl | ahead
      · exact absurd empty full
      · exact .inr ⟨by simp, .inr ahead⟩
  case settle at_ | release at_ =>
    rw [at_] at ahead
    rcases ahead with ahead | ahead
    · cases ahead
    · exact .inr ⟨by simp, .inr ahead⟩
  case processEnd at_ =>
    rw [at_] at ahead
    rcases ahead with ahead | ahead <;> cases ahead
  case finish body _ => exact .inr ⟨by cases body <;> simp, ahead⟩
  case closeBegin | closeNext | closeEnd => cases open_
  all_goals exact .inr ⟨by simp, ahead⟩

theorem Worker.sent_of_signalled {w : Worker} (h : w.signalled = true) :
    w.sentResult = true := by
  cases w <;> first | rfl | cases h

/-- Where the results and the tokens of an open manager are. -/
structure Awake (fm : FetchManager) (log : List Event) : Prop where
  listed : fm.main.isOpen = true → ∀ p, fetched log p = (listed fm).count p + receipts log p
  took : ∀ p, .received p ∈ log → (fm.workers p).sentResult = true
  buffer : fm.main.isOpen = true → ∀ p,
    (fm.done p).buffer ≠ [] ↔ (fm.workers p).sentResult = true ∧ .received p ∉ log
  signalled : ∀ p, .signalled p ∈ log → (fm.workers p).signalled = true
  token : fm.main.isOpen = true → ∀ p, (fm.done p).buffer ≠ [] →
    (fm.workers p).signalled = false ∨ fm.notify.buffer ≠ [] ∨
      Woken log ∧ (fm.main = .idle ∨ p ∈ fm.main.snapshot)

theorem Transition.signalled_mem (tr : Transition fm a fm' ev) {p : Nat}
    (h : .signalled p ∈ ev) : (fm'.workers p).signalled = true := by
  cases tr
  case finish body _ => cases body <;> simp at h
  all_goals simp at h
  case signal =>
    subst h
    simp [setWorker, Worker.signalled]

theorem Awake.mem_listed (inv : Awake fm log) (stored : Stored fm log)
    (open_ : fm.main.isOpen = true) {p : Nat} (full : (fm.done p).buffer ≠ []) :
    p ∈ Fetches.listed fm := by
  obtain ⟨sent, unreceived⟩ := (inv.buffer open_ p).mp full
  have one := stored.fetched_of_sent sent
  have zero : receipts log p = 0 :=
    Nat.eq_zero_of_not_pos (fun h => unreceived (receipts_pos_iff.mp h))
  have balance := inv.listed open_ p
  exact List.count_pos_iff.mp (by omega)

theorem Awake.token_step (inv : Awake fm log) (stored : Stored fm log)
    (tr : Transition fm a fm' ev) (open_ : fm'.main.isOpen = true) {p : Nat}
    (full : (fm.done p).buffer ≠ []) (unreceived : .received p ∉ ev) :
    (fm'.workers p).signalled = false ∨ fm'.notify.buffer ≠ [] ∨
      Woken (log ++ ev) ∧ (fm'.main = .idle ∨ p ∈ fm'.main.snapshot) := by
  have before := tr.open_before open_ stored.emptied
  rcases inv.token before p full with unsignalled | token | ⟨woken, ahead⟩
  · rcases tr.unsignalled_kept unsignalled with ⟨kept, _⟩ | token
    · exact .inl kept
    · exact .inr (.inl token)
  · rcases tr.token_kept open_ token with token | ⟨rfl, idle⟩
    · exact .inr (.inl token)
    · exact .inr (.inr ⟨⟨log, [], rfl, by simp⟩, .inl idle⟩)
  · rcases tr.ahead_kept open_ ahead (inv.mem_listed stored before full) full with mem | ⟨quiet, kept⟩
    · exact absurd mem unreceived
    · exact .inr (.inr ⟨woken_append quiet woken, kept⟩)

theorem Awake.step (inv : Awake fm log) (stored : Stored fm log) (tr : Transition fm a fm' ev) :
    Awake fm' (log ++ ev) where
  listed := by
    intro open_ p
    have old := inv.listed (tr.open_before open_ stored.emptied) p
    have moved := tr.examines open_ p
    rw [fetched_append, receipts_append]
    omega
  took := by
    intro p h
    have kept := (tr.worker_kept (stored.beyond fm.fetches (Nat.le_refl _)) p).1
    rcases List.mem_append.mp h with old | new
    · exact kept (inv.took p old)
    · obtain ⟨open_, full⟩ := tr.received_mem new
      exact kept ((inv.buffer open_ p).mp full).1
  buffer := by
    intro open_ p
    have old := inv.buffer (tr.open_before open_ stored.emptied) p
    have beyond := stored.beyond fm.fetches (Nat.le_refl _)
    rcases tr.buffer_cases open_ beyond p with ⟨r, rfl, unsent, sent, full⟩ |
        ⟨rfl, empty⟩ | ⟨same, sent, unreceived⟩
    · have unreceived : .received p ∉ log := by
        intro h
        rw [inv.took p h] at unsent
        cases unsent
      simp [full, sent, unreceived]
    · simp [empty]
    · simp [same, sent, old, unreceived]
  signalled := by
    intro p h
    rcases List.mem_append.mp h with old | new
    · have kept := inv.signalled p old
      exact (tr.worker_kept (stored.beyond fm.fetches (Nat.le_refl _)) p).2 kept
    · exact tr.signalled_mem new
  token := by
    intro open_ p full
    have before := tr.open_before open_ stored.emptied
    have beyond := stored.beyond fm.fetches (Nat.le_refl _)
    rcases tr.buffer_cases open_ beyond p with ⟨r, rfl, unsent, _, _⟩ |
        ⟨rfl, empty⟩ | ⟨same, _, unreceived⟩
    · have unsignalled : (fm.workers p).signalled = false := by
        cases at_ : fm.workers p <;> simp_all [Worker.sentResult, Worker.signalled]
      rcases tr.unsignalled_kept unsignalled with ⟨kept, _⟩ | token
      · exact .inl kept
      · exact .inr (.inl token)
    · exact absurd empty full
    · exact inv.token_step stored tr open_ (same ▸ full) unreceived

theorem awake_new : Awake newFetchManager [] := by
  constructor <;> simp [newFetchManager, fetched, receipts, listed, Main.snapshot,
    Main.stillPending, Worker.sentResult]

theorem run_awake {as : List Action} (run : Run as fm log) : Stored fm log ∧ Awake fm log := by
  refine exec_invariant_all (I := fun fm log => Stored fm log ∧ Awake fm log) ?_
    ⟨stored_new, awake_new⟩ run
  rintro s pre a t ev ⟨stored, awake⟩ hs
  have tr := step_transition hs
  exact ⟨stored.step tr, awake.step stored tr⟩

/-- A result delivered and not received has its token unsent, in the channel or taken by a
loop that has not finished its `ProcessPending`; so a loop that waits on an empty channel
has settled every fetch whose worker has sent its token. -/
theorem no_lost_wakeup {as : List Action} (run : Run as fm log) (open_ : fm.main.isOpen = true) :
    (∀ p r, .delivered p r ∈ log → .received p ∉ log →
      .signalled p ∉ log ∨ fm.notify.buffer ≠ [] ∨ Woken log) ∧
    (fm.main = .idle → ¬ Woken log → fm.notify.buffer = [] →
      ∀ p, .signalled p ∈ log → calls log p = 1) := by
  obtain ⟨stored, awake⟩ := run_awake run
  have token : ∀ p, (fm.workers p).sentResult = true → .received p ∉ log →
      .signalled p ∉ log ∨ fm.notify.buffer ≠ [] ∨ Woken log := by
    intro p sent unreceived
    have full := (awake.buffer open_ p).mpr ⟨sent, unreceived⟩
    rcases awake.token open_ p full with unsignalled | token | ⟨woken, _⟩
    · refine .inl (fun h => ?_)
      rw [awake.signalled p h] at unsignalled
      cases unsignalled
    · exact .inr (.inl token)
    · exact .inr (.inr woken)
  refine ⟨fun p r delivered => token p (stored.sender p r delivered), ?_⟩
  intro idle asleep empty p signalled
  have sent := Worker.sent_of_signalled (awake.signalled p signalled)
  have one := stored.fetched_of_sent sent
  have received : .received p ∈ log := by
    by_contra unreceived
    rcases token p sent unreceived with unsignalled | token | woken
    · exact unsignalled signalled
    · exact token empty
    · exact asleep woken
  -- it is not in `fm.pending`, and an entry outside it has been settled
  have seen := receipts_pos_iff.mpr received
  have listed := awake.listed open_ p
  have waits := stored.waits open_ p
  have here : (waiting fm).count p = (Fetches.listed fm).count p := by
    simp [waiting, Fetches.listed, idle, Main.snapshot, Main.stillPending]
  omega

/-- The second worker delivers just after its entry was kept; its token stays in the channel. -/
theorem no_lost_wakeup_run : ∃ fm log,
    Run [.fetch (some "http://a"), .fetch (some "http://b"), .newRequest 0 (some "bad url"),
      .deliver 0, .signal 0, .newRequest 1 (some "bad url"), .takeToken, .processBegin, .examine,
      .settle, .release, .examine, .deliver 1, .processEnd, .signal 1] fm log ∧
      .delivered 1 (.failed "fetch error: bad url") ∈ log ∧ .received 1 ∉ log ∧
      (.signalled 1 ∉ log ∨ fm.notify.buffer ≠ [] ∨ Woken log) := by
  obtain ⟨fm, log, run, open_, delivered, unreceived⟩ : ∃ fm log,
      Run [.fetch (some "http://a"), .fetch (some "http://b"), .newRequest 0 (some "bad url"),
        .deliver 0, .signal 0, .newRequest 1 (some "bad url"), .takeToken, .processBegin,
        .examine, .settle, .release, .examine, .deliver 1, .processEnd, .signal 1] fm log ∧
      fm.main.isOpen = true ∧ .delivered 1 (.failed "fetch error: bad url") ∈ log ∧
      .received 1 ∉ log :=
    ⟨_, _, rfl, rfl, by decide, by decide⟩
  exact ⟨fm, log, run, delivered, unreceived,
    (no_lost_wakeup run open_).1 1 _ delivered unreceived⟩

end Fetches
