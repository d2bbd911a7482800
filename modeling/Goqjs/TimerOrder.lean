import Goqjs.TimerClear
import Goqjs.TimerOwnership

/-!
# The order in which timeouts start

Each firing sends on `tm.pending` from its own goroutine, so the deadlines say
nothing about the order of the callbacks; the channel does. What was queued is
what was received followed by what is in the channel, in this order.
-/

namespace Timers

open Runs

variable {tm tm' : TimerManager} {a : Action} {ev log : List Event}

def Event.queuedClosure : Event → Option Closure
  | .queued c => some c
  | _ => none

def Event.leftClosure : Event → Option Closure
  | .taken c => some c
  | .dropped c => some c
  | _ => none

/-- The closures sent on `tm.pending`, and those received from it. -/
def sent (log : List Event) : List Closure := log.filterMap Event.queuedClosure

def received (log : List Event) : List Closure := log.filterMap Event.leftClosure

@[simp] theorem sent_append (log ev : List Event) : sent (log ++ ev) = sent log ++ sent ev :=
  List.filterMap_append

@[simp] theorem received_append (log ev : List Event) :
    received (log ++ ev) = received log ++ received ev :=
  List.filterMap_append

theorem mem_sent {c : Closure} : c ∈ sent log ↔ .queued c ∈ log := by
  rw [sent, List.mem_filterMap]
  constructor
  · rintro ⟨e, mem, h⟩
    cases e <;> simp [Event.queuedClosure] at h
    exact h ▸ mem
  · exact fun mem => ⟨_, mem, rfl⟩

theorem mem_received {c : Closure} :
    c ∈ received log ↔ .taken c ∈ log ∨ .dropped c ∈ log := by
  rw [received, List.mem_filterMap]
  constructor
  · rintro ⟨e, mem, h⟩
    cases e <;> simp [Event.leftClosure] at h
    · exact .inl (h ▸ mem)
    · exact .inr (h ▸ mem)
  · rintro (mem | mem)
    · exact ⟨_, mem, rfl⟩
    · exact ⟨_, mem, rfl⟩

/-- A step sends at the back of the channel and receives at its front. -/
theorem Transition.queue (tr : Transition tm a tm' ev) :
    tm.pending.buffer ++ sent ev = received ev ++ tm'.pending.buffer := by
  cases tr
  case sendTimeout send | sendInterval send =>
    rw [(GoChan.send_eq_some.mp send).2]
    rfl
  case skip recv _ | startTimeout recv _ _ _ | freeTimeout recv _ _ _ |
      startInterval recv _ _ _ | drain recv =>
    rw [GoChan.recv_eq_some.mp recv]
    simp [sent, received, List.filterMap_cons, Event.queuedClosure, Event.leftClosure]
  case freeAll empty =>
    have none : ∀ l : List (Sigma fun _ : Int => TimerEntry),
        sent (l.map (fun e => Event.freed e.1 e.2.fn)) = [] ∧
        received (l.map (fun e => Event.freed e.1 e.2.fn)) = [] := by
      intro l
      constructor <;> simp [sent, received, Event.queuedClosure, Event.leftClosure]
    rw [sent_append, received_append, (none _).1, (none _).2]
    simp [sent, received, List.filterMap_cons, Event.queuedClosure, Event.leftClosure]
  all_goals
    simp [sent, received, List.filterMap_cons, cancel, stopTimer, stopTicker, Event.queuedClosure, Event.leftClosure]

/-- What the log says of the channel. -/
structure Channel (tm : TimerManager) (log : List Event) : Prop where
  fifo : sent log = received log ++ tm.pending.buffer
  once : ∀ id, (sent log).count (.timeout id) ≤ 1
  returned : ∀ id, .timeout id ∈ sent log → tm.afterFuncs id = .returned ∧ id ≤ tm.counter
  dropped : ∀ c, .dropped c ∈ log → tm.closed = true

theorem Transition.queued_mem (tr : Transition tm a tm' ev) {id : Int}
    (h : .queued (.timeout id) ∈ ev) :
    ev = [.queued (.timeout id)] ∧ tm.afterFuncs id = .sending ∧ tm'.afterFuncs id = .returned := by
  cases tr <;> simp at h
  case sendTimeout sending _ =>
    subst h
    exact ⟨rfl, sending, Function.update_self _ _ _⟩

theorem Transition.dropped_mem (tr : Transition tm a tm' ev) {c : Closure}
    (h : .dropped c ∈ ev) : tm.main = .draining ∧ tm'.closed = tm.closed := by
  cases tr <;> simp at h
  case drain draining _ => exact ⟨draining, rfl⟩

theorem Channel.step (inv : Channel tm log) (recorded : Recorded tm log) (progress : Progress tm)
    (tr : Transition tm a tm' ev) : Channel tm' (log ++ ev) where
  fifo := by
    rw [sent_append, received_append, inv.fifo, List.append_assoc, tr.queue, List.append_assoc]
  once := by
    intro id
    have old := inv.once id
    rw [sent_append, List.count_append]
    by_cases mem : Event.queued (.timeout id) ∈ ev
    · obtain ⟨rfl, sending, _⟩ := tr.queued_mem mem
      have unsent : (sent log).count (.timeout id) = 0 := by
        apply List.count_eq_zero.mpr
        intro mem
        rw [(inv.returned id mem).1] at sending
        cases sending
      have one : sent [.queued (.timeout id)] = [.timeout id] := rfl
      simp [unsent, one]
    · have none : (sent ev).count (.timeout id) = 0 :=
        List.count_eq_zero.mpr (fun h => mem (mem_sent.mp h))
      omega
  returned := by
    intro id h
    rw [sent_append, List.mem_append] at h
    rcases h with old | new
    · obtain ⟨ret, bound⟩ := inv.returned id old
      refine ⟨?_, Int.le_trans bound tr.counter_le⟩
      rcases tr.afterFunc_origin id with same | ⟨_, _, d, was, _⟩ | ⟨hr, _⟩ | ⟨_, d, was⟩ |
          ⟨_, _, _, _, _, hid, _⟩
      · exact same.trans ret
      · rw [ret] at was; cases was
      · exact hr
      · rw [ret] at was; cases was
      · omega
    · obtain ⟨_, sending, ret⟩ := tr.queued_mem (mem_sent.mp new)
      have registered := recorded.afterFunc id (by rw [sending]; simp)
      exact ⟨ret, Int.le_trans (recorded.logged id false registered) tr.counter_le⟩
  dropped := by
    intro c h
    rcases List.mem_append.mp h with old | new
    · exact tr.closed_mono (inv.dropped c old)
    · obtain ⟨draining, same⟩ := tr.dropped_mem new
      rw [same]
      cases closed : tm.closed with
      | true => rfl
      | false => exact absurd draining (progress.not_draining closed)

/-- A timeout received now comes after every one queued before it. -/
theorem Channel.received_before (inv : Channel tm log) {i j : Int} {rest : List Closure}
    (head : tm.pending.buffer = .timeout j :: rest)
    (before : Before (.queued (.timeout i)) (.queued (.timeout j)) log) :
    .timeout i ∈ received log := by
  obtain ⟨pre, post, rfl, mem⟩ := before
  have fifo := inv.fifo
  have once := inv.once j
  rw [head, sent_append] at fifo
  rw [sent_append, List.count_append] at once
  have split : sent (.queued (.timeout j) :: post) = .timeout j :: sent post := rfl
  rw [split, List.count_cons_self] at once
  rw [split] at fifo
  have noPre : .timeout j ∉ sent pre := List.count_eq_zero.mp (by omega)
  have noPost : .timeout j ∉ sent post := List.count_eq_zero.mp (by omega)
  rw [← ((List.append_cons_inj_of_notMem noPre noPost).mp fifo).1]
  exact mem_sent.mpr mem

/-- When the callback of the timeout `j` starts, its firing has been queued, and the
callback of every timeout `i` queued before it and not cleared has started. -/
def StartsInOrder (pre : List Event) (e : Event) : Prop :=
  ∀ j fn, e = .started j fn → Registered pre j false → .queued (.timeout j) ∈ pre ∧
    ∀ i, Before (.queued (.timeout i)) (.queued (.timeout j)) pre → ¬ Cleared pre i →
      ∃ f, .started i f ∈ pre

theorem started_of_received (inv : Channel tm log) (history : History tm log)
    (isOpen : tm.closed = false) (began : .closeBegan ∈ log → tm.closed = true) {i : Int}
    (left : .timeout i ∈ received log) (uncleared : ¬ Cleared log i) :
    ∃ f, .started i f ∈ log := by
  rcases mem_received.mp left with taken | dropped
  · obtain ⟨pre, post, rfl⟩ := List.append_of_mem taken
    obtain ⟨f, rest, rfl⟩ := history.received pre _ post rfl
      (fun h => uncleared (h.append _))
      (fun h => by rw [began (List.mem_append_left _ h)] at isOpen; cases isOpen)
    exact ⟨f, by simp [Closure.id]⟩
  · rw [inv.dropped _ dropped] at isOpen
    cases isOpen

theorem Channel.starts_in_order (inv : Channel tm log) (history : History tm log)
    (began : .closeBegan ∈ log → tm.closed = true) (tr : Transition tm a tm' ev)
    (old : Guarded StartsInOrder log) : Guarded StartsInOrder (log ++ ev) := by
  apply guarded_append old
  rintro mid e post hev j fn rfl registered
  have started : Event.started j fn ∈ ev := by simp [hev]
  obtain ⟨c, q, _, _, _, _, recv, hc, isOpen, _, _, _, hev', _⟩ := tr.started_mem started
  obtain rfl : mid = [.taken c] := by
    rw [hev'] at hev
    rcases mid with _ | ⟨x, _ | ⟨y, mid⟩⟩ <;> simp_all
  have head := GoChan.recv_eq_some.mp recv
  have timeout : Registered log j false := by
    obtain ⟨f, t, d, mem⟩ := registered
    exact ⟨f, t, d, by simpa using mem⟩
  obtain rfl : c = .timeout j := by
    cases c with
    | timeout i => exact congrArg Closure.timeout hc
    | interval i =>
      obtain rfl : i = j := hc
      have queued := history.recorded.intervalQueued i (by rw [head]; exact List.mem_cons_self)
      exact absurd queued (history.recorded.unique i timeout)
  have queued : .timeout j ∈ sent log := by
    rw [inv.fifo, head]
    simp
  refine ⟨List.mem_append_left _ (mem_sent.mp queued), fun i before uncleared => ?_⟩
  have before := (before_append_of_notMem (by simp)).mp before
  obtain ⟨f, mem⟩ := started_of_received inv history isOpen began
    (inv.received_before head before) (fun h => uncleared (h.append _))
  exact ⟨f, List.mem_append_left _ mem⟩

theorem Transition.now_le (tr : Transition tm a tm' ev) : tm.now ≤ tm'.now := by
  cases tr <;> first | exact Nat.le_refl _ | exact Nat.le_add_right _ _

/-- No timeout fires before its deadline. -/
structure Due (tm : TimerManager) (log : List Event) : Prop where
  armed : ∀ id fn t d dl, .registered id fn false t d ∈ log → tm.afterFuncs id = .armed dl →
    dl = t + d
  sending : ∀ id fn t d, .registered id fn false t d ∈ log → tm.afterFuncs id = .sending →
    t + d ≤ tm.now
  queued : ∀ id fn t d, .registered id fn false t d ∈ log → .queued (.timeout id) ∈ log →
    t + d ≤ tm.now

theorem Transition.registered_armed (tr : Transition tm a tm' ev) {id : Int} {fn t d : Nat}
    (h : .registered id fn false t d ∈ ev) : tm'.afterFuncs id = .armed (t + d) := by
  cases tr <;> simp at h
  obtain ⟨rfl, rfl, rfl, rfl⟩ := h
  exact Function.update_self _ _ _

theorem Due.step (inv : Due tm log) (channel : Channel tm log) (recorded : Recorded tm log)
    (tr : Transition tm a tm' ev) : Due tm' (log ++ ev) where
  armed := by
    intro id fn t d dl registered armed
    rcases List.mem_append.mp registered with old | new
    · have := recorded.logged id false ⟨fn, t, d, old⟩
      rcases tr.afterFunc_origin id with same | ⟨hr, _⟩ | ⟨hr, _⟩ | ⟨hr, _⟩ |
          ⟨_, _, _, _, _, hid, _⟩
      · exact inv.armed id fn t d dl old (same ▸ armed)
      · rw [hr] at armed; cases armed
      · rw [hr] at armed; cases armed
      · rw [hr] at armed; cases armed
      · omega
    · rw [tr.registered_armed new] at armed
      exact (AfterFunc.armed.inj armed).symm
  sending := by
    intro id fn t d registered sending
    rcases List.mem_append.mp registered with old | new
    · have := tr.now_le
      rcases tr.afterFunc_origin id with same | ⟨_, _, dl, armed, due⟩ | ⟨hr, _⟩ | ⟨hr, _⟩ |
          ⟨_, _, _, _, hr, _⟩
      · have := inv.sending id fn t d old (same ▸ sending)
        omega
      · have := inv.armed id fn t d dl old armed
        omega
      all_goals
        rw [hr] at sending
        cases sending
    · rw [tr.registered_armed new] at sending
      cases sending
  queued := by
    intro id fn t d registered queued
    have := tr.now_le
    rcases List.mem_append.mp queued with queued | queued
    · have bound := (channel.returned id (mem_sent.mpr queued)).2
      rcases List.mem_append.mp registered with old | new
      · have := inv.queued id fn t d old queued
        omega
      · have := (tr.registered_mem new).1
        omega
    · obtain ⟨rfl, sending, _⟩ := tr.queued_mem queued
      have registered : .registered id fn false t d ∈ log := by simpa using registered
      have := inv.sending id fn t d registered sending
      omega

structure Ordered (tm : TimerManager) (log : List Event) : Prop where
  history : History tm log
  began : .closeBegan ∈ log → tm.closed = true
  channel : Channel tm log
  due : Due tm log
  guarded : Guarded StartsInOrder log

theorem run_ordered {as : List Action} (run : Run as tm log) : Ordered tm log := by
  refine exec_invariant_all (I := fun tm log => Inv tm log ∧ Ordered tm log) ?_ ⟨inv_new, ?_⟩ run
    |>.2
  · rintro s pre a t ev ⟨inv, ordered⟩ hs
    have tr := step_transition hs
    have recorded := ordered.history.recorded
    refine ⟨inv.step tr, ordered.history.step tr, (inv.step tr).safe.began,
      ordered.channel.step recorded ordered.history.progress tr,
      ordered.due.step ordered.channel recorded tr,
      ordered.channel.starts_in_order ordered.history ordered.began tr ordered.guarded⟩
  · refine ⟨history_new, by simp, ?_, ?_, guarded_nil _⟩
    · constructor <;> simp [newTimerManager, sent, received]
    · constructor <;> simp

/-- The order the deadlines ask for: of two timeouts, neither of them cleared, the one
registered first and due first starts first. -/
def StartsByDeadline (log : List Event) : Prop :=
  ∀ i j f g t₁ d₁ t₂ d₂,
    Before (.registered i f false t₁ d₁) (.registered j g false t₂ d₂) log →
    t₁ + d₁ ≤ t₂ + d₂ → .cleared i ∉ log → .cleared j ∉ log →
    ∀ pre post, log = pre ++ .started j g :: post → ∃ h, .started i h ∈ pre

/-- Two calls with one delay: the goroutine of the second sends first. -/
theorem startsByDeadline_fails : ∃ tm log,
    Run [.setTimeout (some 7) (some 5), .setTimeout (some 8) (some 5), .advance 5, .expire 1,
      .expire 2, .sendTimeout 2, .sendTimeout 1, .processBegin, .receive] tm log ∧
      ¬ StartsByDeadline log := by
  obtain ⟨tm, log, run, hlog⟩ : ∃ tm log,
      Run [.setTimeout (some 7) (some 5), .setTimeout (some 8) (some 5), .advance 5, .expire 1,
        .expire 2, .sendTimeout 2, .sendTimeout 1, .processBegin, .receive] tm log ∧
      log = [.registered 1 7 false 0 5, .registered 2 8 false 0 5, .fired 1, .fired 2,
        .queued (.timeout 2), .queued (.timeout 1), .processBegan, .taken (.timeout 2),
        .started 2 8] := ⟨_, _, rfl, rfl⟩
  subst hlog
  refine ⟨tm, _, run, fun order => ?_⟩
  obtain ⟨h, started⟩ := order 1 2 7 8 0 5 0 5 ⟨[.registered 1 7 false 0 5], _, rfl, by simp⟩
    (Nat.le_refl 5) (by decide) (by decide)
    [.registered 1 7 false 0 5, .registered 2 8 false 0 5, .fired 1, .fired 2,
      .queued (.timeout 2), .queued (.timeout 1), .processBegan, .taken (.timeout 2)] [] rfl
  simp at started

/-- Timeouts start in the order in which their firings were queued; in particular the
first of two starts first if its firing was queued before the other was due. -/
theorem timeout_order {as bs : List Action} {tm₁ tm₂ : TimerManager} {log₁ log₂ : List Event}
    (first : Run as tm₁ log₁) (second : exec step tm₁ bs = some (tm₂, log₂)) :
    Guarded StartsInOrder (log₁ ++ log₂) ∧
    ∀ i j f t d, .queued (.timeout i) ∈ log₁ → tm₁.now < t + d →
      .registered j f false t d ∈ log₁ ++ log₂ → ¬ Cleared (log₁ ++ log₂) i →
      ∀ pre post, log₁ ++ log₂ = pre ++ .started j f :: post → ∃ h, .started i h ∈ pre := by
  have whole : Run (as ++ bs) tm₂ (log₁ ++ log₂) := exec_append first second
  have ordered := run_ordered whole
  refine ⟨ordered.guarded, fun i j f t d queued early registered uncleared pre post split => ?_⟩
  have unqueued : .queued (.timeout j) ∉ log₁ := by
    intro h
    have before := run_ordered first
    have known := before.history.recorded.afterFunc j
      (by rw [(before.channel.returned j (mem_sent.mpr h)).1]; simp)
    obtain ⟨g, t', d', registered'⟩ := known
    obtain ⟨_, _, rfl, rfl⟩ := (run_owned whole).1.2.registered_eq registered
      (List.mem_append_left _ registered')
    have := before.due.queued j g t d registered' h
    omega
  have timeout : Registered pre j false := by
    obtain ⟨iv, t', d', mem⟩ := ((run_inv whole).guarded pre _ post split j f rfl).registered
    obtain ⟨_, rfl, _⟩ := (run_owned whole).1.2.registered_eq registered
      (by rw [split]; exact List.mem_append_left _ mem)
    exact ⟨f, t', d', mem⟩
  obtain ⟨mem, order⟩ := ordered.guarded pre _ post split j f rfl timeout
  rcases List.append_eq_append_iff.mp split with ⟨mid, rfl, _⟩ | ⟨mid, rfl, _⟩
  · rcases List.mem_append.mp mem with mem | mem
    · exact absurd mem unqueued
    · refine order i (before_of_mem queued mem) (fun h => uncleared ?_)
      rw [split]
      exact h.append _
  · exact absurd (List.mem_append_left _ mem) unqueued

/-- The second of two timeouts is due later than the first is queued. -/
theorem timeout_order_run : ∃ tm log,
    Run [.setTimeout (some 7) (some 5), .setTimeout (some 8) (some 9), .advance 5, .expire 1,
      .sendTimeout 1, .advance 4, .expire 2, .sendTimeout 2, .processBegin, .receive, .callReturn,
      .receive] tm log ∧ Guarded StartsInOrder log ∧
      ∀ pre post, log = pre ++ .started 2 8 :: post → ∃ h, .started 1 h ∈ pre := by
  obtain ⟨tm₁, log₁, tm₂, log₂, first, second, queued, early, registered, uncleared⟩ :
      ∃ tm₁ log₁ tm₂ log₂,
      Run [.setTimeout (some 7) (some 5), .setTimeout (some 8) (some 9), .advance 5, .expire 1,
        .sendTimeout 1] tm₁ log₁ ∧
      exec step tm₁ [.advance 4, .expire 2, .sendTimeout 2, .processBegin, .receive, .callReturn,
        .receive] = some (tm₂, log₂) ∧
      .queued (.timeout 1) ∈ log₁ ∧ tm₁.now < 0 + 9 ∧ .registered 2 8 false 0 9 ∈ log₁ ++ log₂ ∧
      .cleared 1 ∉ log₁ ++ log₂ :=
    ⟨_, _, _, _, rfl, rfl, by decide, by decide, by decide, by decide⟩
  obtain ⟨guarded, order⟩ := timeout_order first second
  have uncleared : ¬ Cleared (log₁ ++ log₂) 1 := by
    rintro ⟨fn, iv, t, d, before⟩
    exact uncleared before.mem_right
  exact ⟨tm₂, log₁ ++ log₂, exec_append first second, guarded,
    order 1 2 8 0 9 queued early registered uncleared⟩

end Timers
