import Goqjs.TimerSteps

/-!
# Timer safety

What precedes every start of a timer callback, in every interleaving. Each
invariant relates the state to the log of the run and is kept by every step;
the guard on `started` events is then read off the step that emits one.
-/

namespace Timers

open Runs

variable {tm tm' : TimerManager} {a : Action} {ev log : List Event}

def Registered (log : List Event) (id : Int) (interval : Bool) : Prop :=
  ∃ fn t d, Event.registered id fn interval t d ∈ log

/-- A clear call on `id` has been made since `id` was registered. -/
def Cleared (log : List Event) (id : Int) : Prop :=
  ∃ fn iv t d, Before (.registered id fn iv t d) (.cleared id) log

/-- The log ends inside a call of `ProcessPending`. -/
def InProcess (log : List Event) : Prop :=
  ∃ pre post, log = pre ++ .processBegan :: post ∧ ∀ b, .processed b ∉ post

theorem Registered.append {id : Int} {iv : Bool} (h : Registered log id iv) (ev : List Event) :
    Registered (log ++ ev) id iv := by
  obtain ⟨fn, t, d, h⟩ := h
  exact ⟨fn, t, d, List.mem_append_left _ h⟩

theorem InProcess.append (h : InProcess log) (quiet : ∀ b, .processed b ∉ ev) :
    InProcess (log ++ ev) := by
  obtain ⟨pre, post, rfl, open_⟩ := h
  refine ⟨pre, post ++ ev, by simp, fun b hb => ?_⟩
  rcases List.mem_append.mp hb with hb | hb
  · exact open_ b hb
  · exact quiet b hb

/-- What the log says of the entries, goroutines and queued closures. -/
structure Recorded (tm : TimerManager) (log : List Event) : Prop where
  bound : ∀ id e, tm.timers.lookup id = some e → id ≤ tm.counter
  logged : ∀ id iv, Registered log id iv → id ≤ tm.counter
  unique : ∀ id, Registered log id false → ¬ Registered log id true
  entry : ∀ id e, tm.timers.lookup id = some e →
    ∃ t d, .registered id e.fn e.interval t d ∈ log
  afterFunc : ∀ id, tm.afterFuncs id ≠ .unset → Registered log id false
  loop : ∀ id, tm.loops id ≠ .unset → Registered log id true
  timeoutQueued : ∀ id, .timeout id ∈ tm.pending.buffer → Registered log id false
  intervalQueued : ∀ id, .interval id ∈ tm.pending.buffer → Registered log id true
  started : ∀ id fn, .started id fn ∈ log → id ≤ tm.counter

theorem registered_append (tr : Transition tm a tm' ev) {id : Int} {iv : Bool}
    (h : Registered (log ++ ev) id iv) :
    Registered log id iv ∨ id = tm.counter + 1 ∧ tm'.counter = id ∧
      ∃ fn t d, ev = [.registered id fn iv t d] := by
  obtain ⟨fn, t, d, h⟩ := h
  rcases List.mem_append.mp h with h | h
  · exact .inl ⟨fn, t, d, h⟩
  · obtain ⟨hid, hc, _, hev⟩ := tr.registered_mem h
    exact .inr ⟨hid, hc, fn, t, d, hev⟩

theorem Recorded.step (inv : Recorded tm log) (tr : Transition tm a tm' ev) :
    Recorded tm' (log ++ ev) where
  bound := by
    intro id e h
    have hc := tr.counter_le
    rcases tr.lookup_origin h with old | ⟨e', old, _, _⟩ | ⟨hid, _, hev⟩
    · exact Int.le_trans (inv.bound id e old) hc
    · exact Int.le_trans (inv.bound id e' old) hc
    · obtain ⟨_, hn, _⟩ := tr.registered_mem (hev ▸ List.mem_singleton_self _)
      exact Int.le_of_eq hn.symm
  logged := by
    intro id iv h
    rcases registered_append tr h with old | ⟨_, hn, _⟩
    · exact Int.le_trans (inv.logged id iv old) tr.counter_le
    · exact Int.le_of_eq hn.symm
  unique := by
    intro id hf ht
    rcases registered_append tr hf with oldf | ⟨hid, _, _, _, _, hev⟩
    · rcases registered_append tr ht with oldt | ⟨hid, _⟩
      · exact inv.unique id oldf oldt
      · have := inv.logged id _ oldf
        omega
    · rcases registered_append tr ht with oldt | ⟨_, _, _, _, _, hev'⟩
      · have := inv.logged id _ oldt
        omega
      · rw [hev] at hev'
        simp at hev'
  entry := by
    intro id e h
    rcases tr.lookup_origin h with old | ⟨e', old, rfl, _⟩ | ⟨_, _, hev⟩
    · obtain ⟨t, d, mem⟩ := inv.entry id e old
      exact ⟨t, d, List.mem_append_left _ mem⟩
    · obtain ⟨t, d, mem⟩ := inv.entry id e' old
      exact ⟨t, d, List.mem_append_left _ mem⟩
    · exact ⟨_, _, List.mem_append_right _ (hev ▸ List.mem_singleton_self _)⟩
  afterFunc := by
    intro id h
    rcases tr.afterFunc_origin id with same | ⟨_, _, d, old, _⟩ | ⟨_, old⟩ | ⟨_, d, old⟩ |
        ⟨_, _, _, _, _, _, hev⟩
    · exact (inv.afterFunc id (same ▸ h)).append ev
    · exact (inv.afterFunc id (by rw [old]; simp)).append ev
    · exact (inv.afterFunc id (by rw [old]; simp)).append ev
    · exact (inv.afterFunc id (by rw [old]; simp)).append ev
    · exact ⟨_, _, _, List.mem_append_right _ (hev ▸ List.mem_singleton_self _)⟩
  loop := by
    intro id h
    rcases tr.loop_started h with old | ⟨_, _, _, hev⟩
    · exact (inv.loop id old).append ev
    · exact ⟨_, _, _, List.mem_append_right _ (hev ▸ List.mem_singleton_self _)⟩
  timeoutQueued := by
    intro id h
    rcases tr.pending_origin h with old | ⟨c, hc, sending, _⟩ | ⟨c, hc, _⟩
    · exact (inv.timeoutQueued id old).append ev
    · cases hc
      exact (inv.afterFunc id (by rw [sending]; simp)).append ev
    · cases hc
  intervalQueued := by
    intro id h
    rcases tr.pending_origin h with old | ⟨c, hc, _⟩ | ⟨c, hc, sending, _⟩
    · exact (inv.intervalQueued id old).append ev
    · cases hc
    · cases hc
      exact (inv.loop id (by rw [sending]; simp)).append ev
  started := by
    intro id fn h
    rcases List.mem_append.mp h with old | new
    · exact Int.le_trans (inv.started id fn old) tr.counter_le
    · obtain ⟨_, _, _, e, _, _, _, _, _, found, _⟩ := tr.started_mem new
      exact Int.le_trans (inv.bound id e found) tr.counter_le

/-- Everything on its way to `tm.pending` comes from a firing. -/
structure Fired (tm : TimerManager) (log : List Event) : Prop where
  sending : ∀ id, tm.afterFuncs id = .sending → .fired id ∈ log
  tick : ∀ id, (tm.tickers id).tick = true → .fired id ∈ log
  loop : ∀ id, (tm.loops id).holdsTick = true → .fired id ∈ log
  queued : ∀ c ∈ tm.pending.buffer, .fired c.id ∈ log

theorem Fired.step (inv : Fired tm log) (tr : Transition tm a tm' ev) :
    Fired tm' (log ++ ev) where
  sending := by
    intro id h
    rcases tr.afterFunc_origin id with same | ⟨_, hev, _⟩ | ⟨hr, _⟩ | ⟨hr, _⟩ |
        ⟨_, _, _, _, hr, _⟩
    · exact List.mem_append_left _ (inv.sending id (same ▸ h))
    · exact List.mem_append_right _ (hev ▸ List.mem_singleton_self _)
    all_goals
      rw [hr] at h
      cases h
  tick := by
    intro id h
    rcases tr.tick_origin h with old | hev
    · exact List.mem_append_left _ (inv.tick id old)
    · exact List.mem_append_right _ (hev ▸ List.mem_singleton_self _)
  loop := by
    intro id h
    rcases tr.loop_origin h with old | old
    · exact List.mem_append_left _ (inv.loop id old)
    · exact List.mem_append_left _ (inv.tick id old)
  queued := by
    intro c h
    rcases tr.pending_origin h with old | ⟨id, rfl, sending, _⟩ | ⟨id, rfl, sending, _⟩
    · exact List.mem_append_left _ (inv.queued c old)
    · exact List.mem_append_left _ (inv.sending id sending)
    · exact List.mem_append_left _ (inv.loop id (by rw [sending]; rfl))

/-- A clear call leaves no live entry, and a start of a timeout no entry at all. -/
structure Safe (tm : TimerManager) (log : List Event) : Prop where
  once : ∀ id fn, Registered log id false → .started id fn ∈ log → tm.timers.lookup id = none
  uncleared : ∀ id e, tm.timers.lookup id = some e → e.canceled = false → ¬ Cleared log id
  began : .closeBegan ∈ log → tm.closed = true
  inProcess : tm.main.inProcess = true → InProcess log

theorem cleared_append (tr : Transition tm a tm' ev) {id : Int} (h : Cleared (log ++ ev) id) :
    Cleared log id ∨ ev = [.cleared id] := by
  obtain ⟨fn, iv, t, d, before⟩ := h
  by_cases mem : Event.cleared id ∈ ev
  · exact .inr (tr.cleared_mem mem).1
  · exact .inl ⟨fn, iv, t, d, (before_append_of_notMem mem).mp before⟩

theorem Safe.step (inv : Safe tm log) (recorded : Recorded tm log)
    (tr : Transition tm a tm' ev) : Safe tm' (log ++ ev) where
  once := by
    intro id fn registered started
    cases present : tm'.timers.lookup id with
    | none => rfl
    | some e' =>
      exfalso
      rcases List.mem_append.mp started with old | new
      · have le := recorded.started id fn old
        have hreg : Registered log id false := by
          rcases registered_append tr registered with h | ⟨hid, _⟩
          · exact h
          · omega
        have gone := inv.once id fn hreg old
        rcases tr.lookup_origin present with same | ⟨_, same, _⟩ | ⟨hid, _⟩
        · rw [gone] at same
          cases same
        · rw [gone] at same
          cases same
        · omega
      · obtain ⟨c, q, b, e, _, _, recv, hc, _, found, _, _, hev, rfl⟩ := tr.started_mem new
        have hreg : Registered log id false := by
          rcases registered_append tr registered with h | ⟨_, _, _, _, _, hev'⟩
          · exact h
          · rw [hev] at hev'
            simp at hev'
        have mem : c ∈ tm.pending.buffer := by
          rw [GoChan.recv_eq_some.mp recv]
          exact List.mem_cons_self
        cases c with
        | timeout i =>
          obtain rfl : i = id := hc
          simp at present
        | interval i =>
          obtain rfl : i = id := hc
          exact recorded.unique i hreg (recorded.intervalQueued i mem)
  uncleared := by
    intro id e h live cleared
    rcases cleared_append tr cleared with old | hev
    · rcases tr.lookup_origin h with same | ⟨e', _, rfl, _⟩ | ⟨hid, _, hev⟩
      · exact inv.uncleared id e same live old
      · cases live
      · obtain ⟨fn, iv, t, d, before⟩ := old
        have := recorded.logged id iv ⟨fn, t, d, before.mem_left⟩
        omega
    · have := (tr.cleared_mem (hev ▸ List.mem_singleton_self _)).2 e h
      rw [live] at this
      cases this
  began := by
    intro h
    rcases List.mem_append.mp h with old | new
    · exact tr.closed_mono (inv.began old)
    · exact tr.closeBegan_mem new
  inProcess := by
    intro h
    rcases tr.inProcess_origin h with ⟨old, quiet⟩ | rfl
    · exact (inv.inProcess old).append quiet
    · exact ⟨log, [], rfl, by simp⟩

/-- What the history says when the callback `fn` of timer `id` is started. -/
structure StartAllowed (pre : List Event) (id : Int) (fn : Nat) : Prop where
  inProcess : InProcess pre
  registered : ∃ iv t d, .registered id fn iv t d ∈ pre
  fired : .fired id ∈ pre
  once : Registered pre id false → ∀ f, .started id f ∉ pre
  notCleared : ¬ Cleared pre id
  notClosing : .closeBegan ∉ pre

def StartsAllowed (pre : List Event) (e : Event) : Prop :=
  ∀ id fn, e = .started id fn → StartAllowed pre id fn

theorem start_allowed (recorded : Recorded tm log) (fired : Fired tm log) (safe : Safe tm log)
    (tr : Transition tm a tm' ev) {id : Int} {fn : Nat} (h : .started id fn ∈ ev) :
    StartAllowed log id fn := by
  obtain ⟨c, q, b, e, _, looping, recv, hc, isOpen, found, live, rfl, _, _⟩ := tr.started_mem h
  have mem : c ∈ tm.pending.buffer := by
    rw [GoChan.recv_eq_some.mp recv]
    exact List.mem_cons_self
  obtain ⟨t, d, registered⟩ := recorded.entry id e found
  refine ⟨safe.inProcess (by rw [looping]; rfl), ⟨e.interval, t, d, registered⟩,
    hc ▸ fired.queued c mem, ?_, safe.uncleared id e found live, ?_⟩
  · intro hreg f started
    rw [safe.once id f hreg started] at found
    cases found
  · intro began
    rw [safe.began began] at isOpen
    cases isOpen

theorem StartAllowed.taken {pre : List Event} {id : Int} {fn : Nat}
    (h : StartAllowed pre id fn) (c : Closure) : StartAllowed (pre ++ [.taken c]) id fn := by
  have kept : ∀ e, e ∈ pre ++ [Event.taken c] → e ≠ .taken c → e ∈ pre := by
    intro e he hne
    rcases List.mem_append.mp he with he | he
    · exact he
    · exact absurd (List.mem_singleton.mp he) hne
  obtain ⟨iv, t, d, registered⟩ := h.registered
  refine ⟨h.inProcess.append (by simp), ⟨iv, t, d, List.mem_append_left _ registered⟩,
    List.mem_append_left _ h.fired, ?_, ?_, fun began => h.notClosing (kept _ began (by simp))⟩
  · rintro ⟨f, t, d, hreg⟩ g started
    exact h.once ⟨f, t, d, kept _ hreg (by simp)⟩ g (kept _ started (by simp))
  · rintro ⟨f, iv, t, d, before⟩
    exact h.notCleared ⟨f, iv, t, d, (before_append_of_notMem (by simp)).mp before⟩

structure Inv (tm : TimerManager) (log : List Event) : Prop where
  recorded : Recorded tm log
  fired : Fired tm log
  safe : Safe tm log
  guarded : Guarded StartsAllowed log

theorem inv_new : Inv newTimerManager [] where
  recorded := by
    constructor <;> simp [newTimerManager, Registered]
  fired := by
    constructor <;> simp [newTimerManager, Ticker.unset, IntervalLoop.holdsTick]
  safe := by
    constructor <;> simp [newTimerManager, Main.inProcess]
  guarded := guarded_nil _

theorem Inv.step (inv : Inv tm log) (tr : Transition tm a tm' ev) : Inv tm' (log ++ ev) where
  recorded := inv.recorded.step tr
  fired := inv.fired.step tr
  safe := inv.safe.step inv.recorded tr
  guarded := by
    apply guarded_append inv.guarded
    rintro pre e post hev id fn rfl
    have mem : Event.started id fn ∈ ev := by simp [hev]
    obtain ⟨c, _, _, _, _, _, _, _, _, _, _, _, hev', _⟩ := tr.started_mem mem
    have allowed := start_allowed inv.recorded inv.fired inv.safe tr mem
    -- the start is the second event of its step, after the receive of its closure
    obtain ⟨rfl, rfl⟩ : pre = [.taken c] ∧ post = [] := by
      rw [hev'] at hev
      rcases pre with _ | ⟨x, pre⟩
      · simp at hev
      · rcases pre with _ | ⟨y, pre⟩ <;> simp_all
    exact allowed.taken c

theorem run_inv {as : List Action} (run : Run as tm log) : Inv tm log :=
  exec_invariant_all (fun _ _ _ _ _ inv hs => inv.step (step_transition hs)) inv_new run

end Timers
