import Goqjs.TimerOrder
import Mathlib.Algebra.Order.BigOperators.Group.Finset
import Mathlib.Data.Finset.Image

/-!
# One call of `ProcessPending`

The loop runs until it sees `tm.pending` empty, and nothing keeps timers from firing while it runs.
Each callback that a call starts is paid for by one firing: one that was queued or waiting to be
queued when the call began, or one during the call.
-/

namespace Timers

open Runs

variable {tm tm' s t : TimerManager} {a : Action} {ev log log' : List Event} {id : Int}

/-- A firing that is not queued yet is at one of three places. -/
def AfterFunc.firings : AfterFunc → Nat
  | .sending => 1
  | _ => 0

def Ticker.firings (t : Ticker) : Nat := t.tick.toNat

def IntervalLoop.firings : IntervalLoop → Nat
  | .ticked => 1
  | .looking => 1
  | .sending => 1
  | _ => 0

@[simp] theorem AfterFunc.firings_stop (f : AfterFunc) : f.stop.firings = f.firings := by
  cases f <;> rfl

@[simp] theorem Ticker.firings_stop (t : Ticker) : t.stop.firings = t.firings := rfl

/-- Firings of `id` that no goroutine has queued yet. -/
def unqueued (tm : TimerManager) (id : Int) : Nat :=
  (tm.afterFuncs id).firings + (tm.tickers id).firings + (tm.loops id).firings

/-- Firings of `id` that are queued or waiting to be queued. -/
def waiting (tm : TimerManager) (id : Int) : Nat :=
  unqueued tm id + tm.pending.buffer.countP (fun c => c.id = id)

def Event.firedId : Event → Option Int
  | .fired id => some id
  | _ => none

def Event.takenId : Event → Option Int
  | .taken c => some c.id
  | _ => none

def Event.startedId : Event → Option Int
  | .started id _ => some id
  | _ => none

def fires (log : List Event) (id : Int) : Nat := log.countP (fun e => e.firedId = some id)

def takes (log : List Event) (id : Int) : Nat := log.countP (fun e => e.takenId = some id)

def starts (log : List Event) (id : Int) : Nat := log.countP (fun e => e.startedId = some id)

/-- A step that sends nothing and starts nothing waiting leaves the firings of `id` where they were. -/
theorem unqueued_kept (afterFunc : (tm'.afterFuncs id).firings ≤ (tm.afterFuncs id).firings)
    (ticker : (tm'.tickers id).firings ≤ (tm.tickers id).firings)
    (loop : (tm'.loops id).firings ≤ (tm.loops id).firings) (quiet : sent ev = []) :
    unqueued tm' id + (sent ev).countP (fun c => c.id = id) ≤ unqueued tm id + fires ev id := by
  simp only [unqueued, quiet, List.countP_nil]
  omega

/-- What a timer puts into the channel was waiting or has just fired. -/
theorem Transition.unqueued_le (tr : Transition tm a tm' ev) (id : Int) :
    unqueued tm' id + (sent ev).countP (fun c => c.id = id) ≤ unqueued tm id + fires ev id := by
  cases tr
  case expire c d at_ due =>
    by_cases same : id = c
    · subst same
      simp [unqueued, fires, sent, List.filterMap_cons, Event.queuedClosure, Event.firedId, at_,
        AfterFunc.firings]
      omega
    · simp [unqueued, sent, List.filterMap_cons, Event.queuedClosure, same]
  case tick c running due =>
    by_cases same : id = c
    · subst same
      simp [unqueued, fires, sent, List.filterMap_cons, Event.queuedClosure, Event.firedId,
        Ticker.firings]
      omega
    · simp [unqueued, sent, List.filterMap_cons, Event.queuedClosure, same]
  case sendTimeout c q at_ send =>
    by_cases same : id = c
    · subst same
      simp [unqueued, sent, Event.queuedClosure, Closure.id, at_, AfterFunc.firings]
      omega
    · simp [unqueued, sent, Event.queuedClosure, Closure.id, same, Ne.symm same]
  case sendInterval c q at_ send =>
    by_cases same : id = c
    · subst same
      simp [unqueued, sent, Event.queuedClosure, Closure.id, at_, IntervalLoop.firings]
    · simp [unqueued, sent, Event.queuedClosure, Closure.id, same, Ne.symm same]
  case receiveTick c at_ ready =>
    -- the tick moves from the ticker's channel to the goroutine
    by_cases same : id = c
    · subst same
      simp [unqueued, sent, at_, ready, Ticker.firings, IntervalLoop.firings]
    · simp [unqueued, sent, same]
  case quitTimeout c at_ done =>
    refine unqueued_kept ?_ (le_refl _) (le_refl _) rfl
    by_cases same : id = c <;> simp [same, AfterFunc.firings]
  case seeClosed c at_ closed | seeOpen c at_ isOpen | seeEntry c at_ present |
      seeNothing c at_ absent | quitInterval c done at_ =>
    refine unqueued_kept (le_refl _) (le_refl _) ?_ rfl
    by_cases same : id = c <;> simp [same, at_, IntervalLoop.firings]
  case setTimeout fn d js =>
    refine unqueued_kept ?_ (le_refl _) (le_refl _) rfl
    by_cases same : id = tm.counter + 1 <;> simp [same, AfterFunc.firings]
  case setInterval fn d js =>
    refine unqueued_kept (le_refl _) ?_ ?_ rfl
    · by_cases same : id = tm.counter + 1 <;> simp [same, Ticker.firings]
    · by_cases same : id = tm.counter + 1 <;> simp [same, IntervalLoop.firings]
  case clearTimeout c e js found kind =>
    refine unqueued_kept ?_ (le_refl _) (le_refl _) rfl
    by_cases same : id = c <;> simp [same, stopTimer, cancel]
  case clearInterval c e js found kind =>
    refine unqueued_kept (le_refl _) ?_ (le_refl _) rfl
    by_cases same : id = c <;> simp [same, stopTicker, cancel]
  case freeAll draining empty =>
    refine unqueued_kept ?_ ?_ (le_refl _) ?_
    · by_cases present : id ∈ tm.timers <;> simp [present]
    · by_cases present : id ∈ tm.timers <;> simp [present]
    · simp [sent, List.filterMap_cons, Event.queuedClosure]
  all_goals exact unqueued_kept (le_refl _) (le_refl _) (le_refl _) rfl

/-- A received closure pays with the firing it came from. -/
theorem Transition.takes_le (tr : Transition tm a tm' ev) (id : Int) :
    takes ev id + waiting tm' id ≤ waiting tm id + fires ev id := by
  have queue := congrArg (List.countP (fun c => decide (c.id = id))) tr.queue
  have unqueued := tr.unqueued_le id
  have left : takes ev id ≤ (received ev).countP (fun c => c.id = id) := by
    rw [takes, received, List.countP_filterMap]
    apply List.countP_mono_left
    intro e _ h
    cases e <;> simp_all [Event.takenId, Event.leftClosure]
  simp only [List.countP_append] at queue
  simp only [waiting]
  omega

theorem Transition.starts_le (tr : Transition tm a tm' ev) (id : Int) :
    starts ev id ≤ takes ev id := by
  by_cases some : ∃ fn, Event.started id fn ∈ ev
  · obtain ⟨fn, mem⟩ := some
    obtain ⟨c, _, _, _, _, _, _, same, _, _, _, _, events, _⟩ := tr.started_mem mem
    simp [events, starts, takes, Event.startedId, Event.takenId, same]
  · have none : starts ev id = 0 := by
      rw [starts, List.countP_eq_zero]
      intro e mem
      cases e <;> simp [Event.startedId]
      rintro rfl
      exact some ⟨_, mem⟩
    omega

theorem run_takes_le {as : List Action} (run : exec step s as = some (t, log)) (id : Int) :
    takes log id + waiting t id ≤ waiting s id + fires log id := by
  refine exec_invariant_all (I := fun t log =>
    takes log id + waiting t id ≤ waiting s id + fires log id) ?_ (by simp [takes, fires]) run
  intro r pre a t ev inv hs
  have more := (step_transition hs).takes_le id
  simp only [takes, fires, List.countP_append] at inv more ⊢
  omega

theorem run_starts_le {as : List Action} (run : exec step s as = some (t, log)) (id : Int) :
    starts log id ≤ takes log id := by
  refine exec_invariant_all (I := fun _ log => starts log id ≤ takes log id) ?_
    (by simp [starts, takes]) run
  intro r pre a t ev inv hs
  have more := (step_transition hs).starts_le id
  simp only [starts, takes, List.countP_append] at inv more ⊢
  omega

/-- Ids are numbered from 1, and only registered timers fire. -/
structure Numbered (tm : TimerManager) (log : List Event) : Prop where
  counter : 0 ≤ tm.counter
  positive : ∀ id iv, Registered log id iv → 0 < id
  ticker : ∀ id, (tm.tickers id).running = true → Registered log id true
  fired : ∀ id, .fired id ∈ log → ∃ iv, Registered log id iv

theorem Transition.running_origin (tr : Transition tm a tm' ev)
    (h : (tm'.tickers id).running = true) :
    (tm.tickers id).running = true ∨ ∃ fn t d, ev = [.registered id fn true t d] := by
  cases tr
  case tick c running due =>
    by_cases same : id = c
    · subst same
      exact .inl running
    · exact .inl (by simpa [same] using h)
  case receiveTick c at_ ready =>
    by_cases same : id = c
    · subst same
      exact .inl (by simpa using h)
    · exact .inl (by simpa [same] using h)
  case setInterval fn d js =>
    by_cases same : id = tm.counter + 1
    · subst same
      exact .inr ⟨_, _, _, rfl⟩
    · exact .inl (by simpa [same] using h)
  case clearInterval c e js found kind =>
    by_cases same : id = c
    · subst same
      simp [stopTicker, Ticker.stop] at h
    · exact .inl (by simpa [stopTicker, cancel, same] using h)
  case freeAll draining empty =>
    by_cases present : id ∈ tm.timers
    · simp [present, Ticker.stop] at h
    · exact .inl (by simpa [present] using h)
  all_goals exact .inl h

theorem Transition.fired_mem (tr : Transition tm a tm' ev) (h : .fired id ∈ ev) :
    tm.afterFuncs id ≠ .unset ∨ (tm.tickers id).running = true := by
  cases tr <;> simp at h
  case expire c d armed due =>
    subst h
    exact .inl (by simp [armed])
  case tick c running due =>
    subst h
    exact .inr running

theorem Numbered.step (inv : Numbered tm log) (recorded : Recorded tm log)
    (tr : Transition tm a tm' ev) : Numbered tm' (log ++ ev) where
  counter := le_trans inv.counter tr.counter_le
  positive := by
    intro id iv registered
    rcases registered_append tr registered with old | ⟨new, _⟩
    · exact inv.positive id iv old
    · have := inv.counter
      omega
  ticker := by
    intro id running
    rcases tr.running_origin running with old | ⟨fn, t, d, new⟩
    · exact (inv.ticker id old).append ev
    · exact ⟨fn, t, d, by simp [new]⟩
  fired := by
    intro id fired
    rcases List.mem_append.mp fired with old | new
    · obtain ⟨iv, registered⟩ := inv.fired id old
      exact ⟨iv, registered.append ev⟩
    · rcases tr.fired_mem new with timeout | running
      · exact ⟨false, (recorded.afterFunc id timeout).append ev⟩
      · exact ⟨true, (inv.ticker id running).append ev⟩

theorem numbered_new : Numbered newTimerManager [] := by
  constructor <;> simp [newTimerManager, Registered, Ticker.unset]

theorem run_numbered {as : List Action} (run : Run as tm log) : Numbered tm log := by
  have both : Inv tm log ∧ Numbered tm log := by
    refine exec_invariant_all (I := fun tm log => Inv tm log ∧ Numbered tm log) ?_
      ⟨inv_new, numbered_new⟩ run
    rintro s pre a t ev ⟨inv, numbered⟩ hs
    have tr := step_transition hs
    exact ⟨inv.step tr, numbered.step inv.recorded tr⟩
  exact both.2

/-- The ids that have been given out. -/
def timerIds (tm : TimerManager) : Finset Int :=
  (Finset.range tm.counter.toNat).image (fun n : Nat => (n : Int) + 1)

theorem mem_timerIds : id ∈ timerIds tm ↔ 0 < id ∧ id ≤ tm.counter := by
  simp only [timerIds, Finset.mem_image, Finset.mem_range]
  constructor
  · rintro ⟨n, below, rfl⟩
    omega
  · rintro ⟨positive, le⟩
    exact ⟨(id - 1).toNat, by omega, by omega⟩

theorem Numbered.fired_range (numbered : Numbered tm log) (recorded : Recorded tm log)
    (fired : .fired id ∈ log) : id ∈ timerIds tm := by
  obtain ⟨iv, registered⟩ := numbered.fired id fired
  exact mem_timerIds.mpr ⟨numbered.positive id iv registered, recorded.logged id iv registered⟩

/-- What waits has fired. -/
theorem Fired.of_waiting (fired : Fired tm log) (some : waiting tm id ≠ 0) : .fired id ∈ log := by
  by_contra none
  have afterFunc : (tm.afterFuncs id).firings = 0 := by
    cases h : tm.afterFuncs id <;> first | rfl | exact absurd (fired.sending id h) none
  have ticker : (tm.tickers id).firings = 0 := by
    cases h : (tm.tickers id).tick <;>
      first | exact absurd (fired.tick id h) none | simp [Ticker.firings, h]
  have loop : (tm.loops id).firings = 0 := by
    cases h : tm.loops id <;>
      first | rfl | exact absurd (fired.loop id (by rw [h]; rfl)) none
  have queue : tm.pending.buffer.countP (fun c => c.id = id) = 0 := by
    rw [List.countP_eq_zero]
    intro c mem
    simp only [decide_eq_true_eq]
    rintro rfl
    exact none (fired.queued c mem)
  exact some (by simp [waiting, unqueued, afterFunc, ticker, loop, queue])

/-- Firings queued or waiting to be queued, of all timers. -/
def waitingAll (tm : TimerManager) : Nat := ∑ id ∈ timerIds tm, waiting tm id

def firesAll (log : List Event) : Nat := log.countP (fun e => e.firedId.isSome)

def takesAll (log : List Event) : Nat := log.countP (fun e => e.takenId.isSome)

def startsAll (log : List Event) : Nat := log.countP (fun e => e.startedId.isSome)

theorem fires_pos : 0 < fires log id ↔ .fired id ∈ log := by
  rw [fires, List.countP_pos_iff]
  constructor
  · rintro ⟨e, mem, h⟩
    cases e <;> simp [Event.firedId] at h
    subst h
    exact mem
  · exact fun mem => ⟨_, mem, by simp [Event.firedId]⟩

theorem sum_fires_le (s : Finset Int) : ∑ id ∈ s, fires log id ≤ firesAll log := by
  simp only [fires, firesAll, sum_countP]
  apply List.countP_mono_left
  intro e _ h
  cases some : e.firedId <;> simp_all

theorem sum_takes {s : Finset Int} (range : ∀ id, 0 < takes log id → id ∈ s) :
    ∑ id ∈ s, takes log id = takesAll log := by
  simp only [takes, takesAll, sum_countP]
  apply List.countP_congr
  intro e mem
  cases some : e.takenId with
  | none => simp
  | some id =>
    have present : 0 < takes log id := List.countP_pos_iff.mpr ⟨e, mem, by simp [some]⟩
    simp [range id present]

/-- In any stretch of a run, what is received was waiting at its begin or fires during it. -/
theorem run_takesAll_le {as bs : List Action} (run : Run as tm log)
    (rest : exec step tm bs = some (t, log')) : takesAll log' ≤ waitingAll tm + firesAll log' := by
  have inv := run_inv run
  have whole : Run (as ++ bs) t (log ++ log') := exec_append run rest
  have ids : ∀ id, .fired id ∈ log ++ log' → id ∈ timerIds t := fun id =>
    (run_numbered whole).fired_range (run_inv whole).recorded
  have range : ∀ id, 0 < takes log' id → id ∈ timerIds t := by
    intro id taken
    have le := run_takes_le rest id
    by_cases now : 0 < fires log' id
    · exact ids id (List.mem_append_right _ (fires_pos.mp now))
    · exact ids id (List.mem_append_left _ (inv.fired.of_waiting (by omega)))
  -- timers registered later have nothing waiting at the begin
  have early : ∑ id ∈ timerIds t, waiting tm id ≤ waitingAll tm := by
    apply Finset.sum_le_sum_of_ne_zero
    intro id _ some
    exact (run_numbered run).fired_range inv.recorded (inv.fired.of_waiting some)
  calc takesAll log' = ∑ id ∈ timerIds t, takes log' id := (sum_takes range).symm
    _ ≤ ∑ id ∈ timerIds t, (waiting tm id + fires log' id) :=
        Finset.sum_le_sum fun id _ => by
          have := run_takes_le rest id
          omega
    _ = ∑ id ∈ timerIds t, waiting tm id +
          ∑ id ∈ timerIds t, fires log' id := Finset.sum_add_distrib
    _ ≤ waitingAll tm + firesAll log' := Nat.add_le_add early (sum_fires_le _)

theorem Transition.startsAll_le (tr : Transition tm a tm' ev) : startsAll ev ≤ takesAll ev := by
  cases tr
  case freeAll draining empty =>
    simp [startsAll, Function.comp_def, Event.startedId]
  all_goals simp [startsAll, takesAll, Event.startedId, Event.takenId]

theorem run_startsAll_le {as : List Action} (run : exec step s as = some (t, log)) :
    startsAll log ≤ takesAll log := by
  refine exec_invariant_all (I := fun _ log => startsAll log ≤ takesAll log) ?_ (le_refl _) run
  intro r pre a t ev inv hs
  have more := (step_transition hs).startsAll_le
  simp only [startsAll, takesAll, List.countP_append] at inv more ⊢
  omega

/-- The steps of the thread that is inside `ProcessPending`. -/
def Action.ofCall : Action → Bool
  | .receive => true
  | .callReturn => true
  | .processEnd => true
  | _ => false

/-- A call of `ProcessPending` entered in `tm` has got to `t` by the steps `bs`, its own and
everybody else's. -/
def Call (tm : TimerManager) (bs : List Action) (t : TimerManager) (log : List Event) : Prop :=
  ∃ s ev rest, step tm .processBegin = some (s, ev) ∧ exec step s bs = some (t, rest) ∧
    log = ev ++ rest ∧ AllSteps step (fun s _ => s.main.inProcess = true) s bs

/-- Steps that the thread has to take until it has paid for its last receive. -/
def Main.rank : Main → Nat
  | .processing _ => 1
  | .calling _ _ => 2
  | _ => 0

theorem Transition.rank_le (tr : Transition tm a tm' ev) (inside : tm.main.inProcess = true) :
    (if a.ofCall then 1 else 0) + tm'.main.rank ≤ tm.main.rank + 2 * takesAll ev := by
  cases tr
  case noArgument js call =>
    cases a <;> simp [Action.noArgument, Action.ofCall] at call ⊢
  case clearMiss c js miss call =>
    cases a <;> simp [Action.clears, Action.ofCall] at call ⊢
  case clearOther c e js found call =>
    cases a <;> simp [Action.clears, Action.ofCall, cancel] at call ⊢
  case skip looping recv nothing | freeTimeout looping recv isOpen found canceled |
      startTimeout looping recv isOpen found live | startInterval looping recv isOpen found live |
      processEnd looping empty =>
    simp [Action.ofCall, looping, Main.rank, takesAll, Event.takenId]
  case timeoutReturn calling | intervalReturn calling =>
    simp [Action.ofCall, calling, Main.rank]
  case processBegin idle isOpen =>
    rcases idle with idle | idle <;> simp [idle, Main.inProcess] at inside
  case closeBegin at_ | closeDone at_ | closeWait at_ zero | freeAll at_ empty =>
    simp [at_, Main.inProcess] at inside
  all_goals simp [Action.ofCall, stopTimer, stopTicker, cancel]

theorem run_steps_le {bs : List Action} (run : exec step s bs = some (t, log))
    (during : AllSteps step (fun s _ => s.main.inProcess = true) s bs) :
    bs.countP Action.ofCall + t.main.rank ≤ s.main.rank + 2 * takesAll log := by
  induction bs generalizing s log with
  | nil =>
    obtain ⟨rfl, rfl⟩ := Prod.mk.inj (Option.some.inj run)
    simp
  | cons b bs ih =>
    obtain ⟨r, ev, rest, hs, hr, rfl⟩ := exec_cons_iff.mp run
    have first := (step_transition hs).rank_le during.1
    have next := ih hr (during.2 r ev hs)
    simp only [List.countP_cons, takesAll, List.countP_append] at first next ⊢
    omega

/-- The call is never blocked. -/
theorem step_enabled (inside : tm.main.inProcess = true) :
    ∃ b, b.ofCall = true ∧ (step tm b).isSome = true := by
  cases main : tm.main with
  | processing processed =>
    cases queue : tm.pending.buffer with
    | nil => exact ⟨.processEnd, rfl, by simp [step, processEnd, main, queue]⟩
    | cons c rest =>
      obtain ⟨q, recv, _⟩ := GoChan.recv_of_buffer queue
      refine ⟨.receive, rfl, ?_⟩
      simp only [step, receive, main, recv]
      split <;> rfl
  | calling c fn => cases c <;> exact ⟨.callReturn, rfl, by simp [step, callReturn, main]⟩
  | _ => simp [main, Main.inProcess] at inside

/-- What enters the call moves no firing. -/
theorem Call.unfold {bs : List Action} (call : Call tm bs t log) :
    ∃ s ev rest, step tm .processBegin = some (s, ev) ∧ exec step s bs = some (t, rest) ∧
      log = ev ++ rest ∧ AllSteps step (fun s _ => s.main.inProcess = true) s bs ∧
      s.main.rank ≤ 1 ∧ takesAll ev = 0 := by
  obtain ⟨s, ev, rest, enter, run, rfl, during⟩ := call
  refine ⟨s, ev, rest, enter, run, rfl, during, ?_⟩
  have tr := step_transition enter
  cases tr
  case noArgument js call => cases call
  case clearMiss c js miss call => cases call
  case clearOther c e js found call => cases call
  case processClosed after closed =>
    rcases after with after | after <;> simp [after, Main.rank, takesAll, Event.takenId]
  case processBegin idle isOpen => simp [Main.rank, takesAll, Event.takenId]

theorem run_registered_fresh {as : List Action} (run : exec step s as = some (t, log)) {iv : Bool}
    (registered : Registered log id iv) : s.counter < id := by
  have all : s.counter ≤ t.counter ∧ ∀ id iv, Registered log id iv → s.counter < id := by
    refine exec_invariant_all
      (I := fun t log => s.counter ≤ t.counter ∧ ∀ id iv, Registered log id iv → s.counter < id)
      ?_ ⟨le_refl _, by simp [Registered]⟩ run
    rintro r pre a t ev ⟨le, old⟩ hs
    have tr := step_transition hs
    refine ⟨le_trans le tr.counter_le, fun id iv h => ?_⟩
    rcases registered_append tr h with h | ⟨new, _⟩
    · exact old id iv h
    · omega
  exact all.2 id iv registered

/-- A call starts at most as many callbacks as firings were queued or waiting to be queued when it
was entered and as happen while it runs, and a callback registered during the call only where its
timer fires during the call. It takes at most two steps for each of them and one to end, and one of
its steps can always be taken. -/
theorem processPending_bounded (as bs : List Action) (run : Run as tm log)
    (call : Call tm bs t log') :
    (∀ id, starts log' id ≤ waiting tm id + fires log' id) ∧
    startsAll log' ≤ waitingAll tm + firesAll log' ∧
    (∀ id iv, Registered log' id iv → starts log' id ≤ fires log' id) ∧
    bs.countP Action.ofCall ≤ 2 * (waitingAll tm + firesAll log') + 1 ∧
    (t.main.inProcess = true → ∃ b, b.ofCall = true ∧ (step t b).isSome = true) := by
  obtain ⟨s, ev, rest, enter, steps, rfl, during, rank, quiet⟩ := call.unfold
  have whole : exec step tm (.processBegin :: bs) = some (t, ev ++ rest) :=
    exec_cons_iff.mpr ⟨s, ev, rest, enter, steps, rfl⟩
  have paid : ∀ id, starts (ev ++ rest) id ≤ waiting tm id + fires (ev ++ rest) id := by
    intro id
    have := run_starts_le whole id
    have := run_takes_le whole id
    omega
  have total := run_takesAll_le run whole
  refine ⟨paid, le_trans (run_startsAll_le whole) total, ?_, ?_, step_enabled⟩
  · intro id iv registered
    have new := run_registered_fresh whole registered
    have inv := run_inv run
    have none : waiting tm id = 0 := by
      by_contra some
      have range := (run_numbered run).fired_range inv.recorded (inv.fired.of_waiting some)
      have := (mem_timerIds.mp range).2
      omega
    have := paid id
    omega
  · have own := run_steps_le steps during
    have : takesAll (ev ++ rest) = takesAll ev + takesAll rest := List.countP_append
    omega

/-- The second tick of an interval is queued while its callback runs. -/
theorem processPending_bounded_interval : ∃ tm log t log',
    Run [.setInterval (some 8) (some 1), .advance 1, .tick 1, .receiveTick 1, .checkClosed 1,
      .checkExists 1, .sendInterval 1] tm log ∧
    Call tm [.receive, .advance 1, .tick 1, .receiveTick 1, .checkClosed 1, .checkExists 1,
      .sendInterval 1, .callReturn, .receive, .callReturn, .processEnd] t log' ∧
    waitingAll tm = 1 ∧ startsAll log' = 2 ∧ startsAll log' ≤ waitingAll tm + firesAll log' := by
  refine ⟨_, _, _, _, rfl, ⟨_, _, _, rfl, rfl, rfl, ?during⟩, ?waits, ?started, ?bound⟩
  case during =>
    iterate 11 refine allSteps_cons rfl rfl ?_
    trivial
  case waits => decide +kernel
  case started => decide +kernel
  case bound =>
    refine (processPending_bounded [.setInterval (some 8) (some 1), .advance 1, .tick 1,
      .receiveTick 1, .checkClosed 1, .checkExists 1, .sendInterval 1] [.receive, .advance 1,
      .tick 1, .receiveTick 1, .checkClosed 1, .checkExists 1, .sendInterval 1, .callReturn,
      .receive, .callReturn, .processEnd] rfl ⟨_, _, _, rfl, rfl, rfl, ?_⟩).2.1
    iterate 11 refine allSteps_cons rfl rfl ?_
    trivial

/-- The closure of timer `id` is the only one queued, and the next timer will be `id + 1`. -/
structure Spinning (tm : TimerManager) (id : Int) : Prop where
  main : ∃ b, tm.main = .processing b
  isOpen : tm.closed = false
  counter : tm.counter = id
  queue : tm.pending.buffer = [.timeout id]
  entry : ∃ e, tm.timers.lookup id = some e ∧ e.canceled = false

/-- A callback that makes a new timer of no delay, which expires before the callback returns. -/
def respawn (id : Int) : List Action :=
  [.receive, .setTimeout (some 7) (some 0), .expire (id + 1), .sendTimeout (id + 1), .callReturn]

theorem Spinning.respawn (spinning : Spinning tm id) : ∃ tm' log,
    exec step tm (respawn id) = some (tm', log) ∧ Spinning tm' (id + 1) ∧
      AllSteps step (fun s _ => s.main.inProcess = true) tm (Timers.respawn id) ∧
      startsAll log = 1 ∧ Registered log (id + 1) false ∧
      ∀ i fn, .started i fn ∈ log → i = id := by
  obtain ⟨b, main⟩ := spinning.main
  obtain ⟨e, found, live⟩ := spinning.entry
  obtain ⟨q, recv, empty⟩ := GoChan.recv_of_buffer spinning.queue
  obtain ⟨q', send, queue⟩ := q.send_of_room (.timeout (id + 1)) (by simp [empty])
  let s₁ : TimerManager := { tm with
    pending := q
    timers := tm.timers.erase id
    main := .calling (.timeout id) e.fn }
  let s₂ : TimerManager := { s₁ with
    counter := id + 1
    timers := s₁.timers.insert (id + 1) ⟨7, false, 0, false⟩
    afterFuncs := Function.update tm.afterFuncs (id + 1) (.armed tm.now) }
  let s₃ : TimerManager := { s₂ with
    afterFuncs := Function.update tm.afterFuncs (id + 1) .sending }
  let s₄ : TimerManager := { s₃ with
    pending := q'
    afterFuncs := Function.update tm.afterFuncs (id + 1) .returned }
  let s₅ : TimerManager := { s₄ with main := .processing true }
  have h₁ : step tm .receive = some (s₁, [.taken (.timeout id), .started id e.fn]) := by
    simp [step, receive, main, recv, spinning.isOpen, runClosure, found, live, s₁]
  have h₂ : step s₁ (.setTimeout (some 7) (some 0)) =
      some (s₂, [.registered (id + 1) 7 false tm.now 0]) := by
    simp [step, setTimeout, s₁, s₂, Main.runsJS, spinning.counter, timeoutDelay]
  have h₃ : step s₂ (.expire (id + 1)) = some (s₃, [.fired (id + 1)]) := by
    simp [step, expire, s₁, s₂, s₃]
  have h₄ : step s₃ (.sendTimeout (id + 1)) = some (s₄, [.queued (.timeout (id + 1))]) := by
    simp [step, sendTimeout, s₁, s₂, s₃, s₄, send]
  have h₅ : step s₄ .callReturn = some (s₅, [.ended id, .freed id e.fn]) := rfl
  refine ⟨s₅, _, exec_cons_iff.mpr ⟨s₁, _, _, h₁, exec_cons_iff.mpr ⟨s₂, _, _, h₂,
    exec_cons_iff.mpr ⟨s₃, _, _, h₃, exec_cons_iff.mpr ⟨s₄, _, _, h₄,
      exec_cons_iff.mpr ⟨s₅, _, _, h₅, rfl, rfl⟩, rfl⟩, rfl⟩, rfl⟩, rfl⟩, ?_, ?_, ?_, ?_, ?_⟩
  · refine ⟨⟨true, rfl⟩, spinning.isOpen, rfl, ?_, ⟨7, false, 0, false⟩, ?_, rfl⟩
    · simp [s₅, s₄, queue, empty]
    · simp [s₅, s₄, s₃, s₂]
  · refine allSteps_cons ?_ h₁ (allSteps_cons rfl h₂ (allSteps_cons rfl h₃
      (allSteps_cons rfl h₄ (allSteps_cons rfl h₅ trivial))))
    simp [main, Main.inProcess]
  · simp [startsAll, Event.startedId]
  · exact ⟨7, tm.now, 0, by simp⟩
  · intro i fn mem
    have both : i = id ∧ fn = e.fn := by simpa using mem
    exact both.1

theorem Spinning.respawns (n : Nat) (spinning : Spinning tm id) : ∃ bs t log,
    exec step tm bs = some (t, log) ∧ AllSteps step (fun s _ => s.main.inProcess = true) tm bs ∧
      t.main.inProcess = true ∧ startsAll log = n ∧
      ∀ i fn, .started i fn ∈ log → i = id ∨ Registered log i false := by
  induction n generalizing tm id with
  | zero =>
    obtain ⟨b, main⟩ := spinning.main
    exact ⟨[], tm, [], rfl, trivial, by simp [main, Main.inProcess], rfl, by simp⟩
  | succ n ih =>
    obtain ⟨tm', first, run, next, during, one, registered, only⟩ := spinning.respawn
    obtain ⟨bs, t, rest, runs, within, inside, count, origin⟩ := ih next
    refine ⟨Timers.respawn id ++ bs, t, first ++ rest, exec_append run runs,
      allSteps_append during run within, inside, ?_, ?_⟩
    · rw [startsAll, List.countP_append]
      simp only [startsAll] at one count
      omega
    · intro i fn mem
      rcases List.mem_append.mp mem with old | new
      · exact .inl (only i fn old)
      · rcases origin i fn new with rfl | ⟨f, time, d, later⟩
        · exact .inr (registered.append rest)
        · exact .inr ⟨f, time, d, List.mem_append_right _ later⟩

theorem Spinning.call {tm : TimerManager} (idle : tm.main = .idle)
    (spinning : Spinning { tm with main := .processing false } id) (n : Nat) : ∃ bs t log,
    Call tm bs t log ∧ t.main.inProcess = true ∧ startsAll log = n ∧
      ∀ i fn, .started i fn ∈ log → i = id ∨ Registered log i false := by
  obtain ⟨bs, t, rest, run, during, inside, count, origin⟩ := spinning.respawns n
  have isOpen : tm.closed = false := spinning.isOpen
  refine ⟨bs, t, .processBegan :: rest, ⟨_, [.processBegan], rest, ?_, run, rfl, during⟩, inside,
    count, fun i fn mem => ?_⟩
  · simp [step, processBegin, idle, isOpen]
  · rcases origin i fn (by simpa using mem) with same | ⟨f, time, d, later⟩
    · exact .inl same
    · exact .inr ⟨f, time, d, List.mem_cons_of_mem _ later⟩

/-- One firing is queued, and a call starts as many callbacks as one likes: all but the first are
registered while it runs. -/
theorem processPending_endless : ∃ tm log,
    Run [.setTimeout (some 7) (some 0), .expire 1, .sendTimeout 1] tm log ∧ waitingAll tm = 1 ∧
      ∀ n, ∃ bs t log', Call tm bs t log' ∧ t.main.inProcess = true ∧ startsAll log' = n ∧
        ∀ i fn, .started i fn ∈ log' → i = 1 ∨ Registered log' i false :=
  ⟨_, _, rfl, by decide +kernel, Spinning.call rfl
    ⟨⟨false, rfl⟩, rfl, rfl, rfl, ⟨7, false, 0, false⟩, rfl, rfl⟩⟩

end Timers
