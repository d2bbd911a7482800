import Goqjs.TimerOwnership
import Goqjs.TimerPending

/-!
# `Close` and what is left of it

`Close` waits for the goroutines of intervals, which the wait group counts. The goroutine that
an expired one-shot timer starts is not counted: if it is still at its `select` when the entries
are freed, it may choose to send, and nobody takes what it sent.
-/

namespace Timers

open Runs

variable {tm tm' : TimerManager} {a : Action} {ev log : List Event}

/-- The goroutine of an interval has been started and has not returned. -/
def IntervalLoop.running : IntervalLoop → Bool
  | .unset | .returned => false
  | _ => true

/-- The wait group counts the running goroutines of intervals. -/
def Counted (loops : Int → IntervalLoop) (wg : Nat) : Prop :=
  ∃ ids : List Int, ids.Nodup ∧ (∀ id, id ∈ ids ↔ (loops id).running = true) ∧ ids.length = wg

section Counted

variable {loops : Int → IntervalLoop} {wg : Nat} {id : Int} {l : IntervalLoop}

theorem Counted.move (h : Counted loops wg) (was : (loops id).running = true)
    (is : l.running = true) : Counted (Function.update loops id l) wg := by
  obtain ⟨ids, nodup, mem, length⟩ := h
  refine ⟨ids, nodup, fun i => ?_, length⟩
  by_cases same : i = id
  · subst same
    simp [mem, was, is]
  · simp [mem, same]

theorem Counted.leave (h : Counted loops wg) (was : (loops id).running = true) :
    Counted (Function.update loops id .returned) (wg - 1) := by
  obtain ⟨ids, nodup, mem, length⟩ := h
  refine ⟨ids.erase id, nodup.erase id, fun i => ?_, ?_⟩
  · rw [nodup.mem_erase_iff]
    by_cases same : i = id
    · subst same
      simp [IntervalLoop.running]
    · simp [mem, same]
  · rw [List.length_erase_of_mem ((mem id).mpr was), length]

theorem Counted.enter (h : Counted loops wg) (was : (loops id).running = false)
    (is : l.running = true) : Counted (Function.update loops id l) (wg + 1) := by
  obtain ⟨ids, nodup, mem, length⟩ := h
  have fresh : id ∉ ids := by
    rw [mem, was]
    decide
  refine ⟨id :: ids, List.nodup_cons.mpr ⟨fresh, nodup⟩, fun i => ?_, by rw [List.length_cons, length]⟩
  by_cases same : i = id
  · subst same
    simp [is]
  · simp [mem, same]

theorem Counted.none_running (h : Counted loops 0) (id : Int) : (loops id).running = false := by
  obtain ⟨ids, _, mem, length⟩ := h
  obtain rfl := List.length_eq_zero_iff.mp length
  rw [Bool.eq_false_iff]
  intro running
  exact List.not_mem_nil ((mem id).mpr running)

end Counted

theorem Transition.counted (tr : Transition tm a tm' ev) (recorded : Recorded tm log)
    (h : Counted tm.loops tm.wg) : Counted tm'.loops tm'.wg := by
  have fresh : (tm.loops (tm.counter + 1)).running = false := by
    have unset : tm.loops (tm.counter + 1) = .unset := by
      by_contra started
      have bound := recorded.logged _ true (recorded.loop _ started)
      omega
    rw [unset]
    rfl
  cases tr
  case receiveTick id selecting ready => exact h.move (by rw [selecting]; rfl) rfl
  case seeClosed id ticked closed => exact h.leave (by rw [ticked]; rfl)
  case seeOpen id ticked isOpen => exact h.move (by rw [ticked]; rfl) rfl
  case seeEntry id looking present => exact h.move (by rw [looking]; rfl) rfl
  case seeNothing id looking absent => exact h.leave (by rw [looking]; rfl)
  case sendInterval id q sending send => exact h.move (by rw [sending]; rfl) rfl
  case quitInterval id done waiting =>
    refine h.leave ?_
    rcases waiting with waiting | waiting <;> rw [waiting] <;> rfl
  case setInterval fn delay js => exact h.enter fresh rfl
  all_goals exact h

/-- The entry of an armed timer is in the map, so that `Close` finds the timer. -/
theorem Transition.armed_entry (tr : Transition tm a tm' ev) (progress : Progress tm)
    (h : ∀ id d, tm.afterFuncs id = .armed d → id ∈ tm.timers) {id : Int} {d : Nat}
    (armed : tm'.afterFuncs id = .armed d) : id ∈ tm'.timers := by
  cases tr
  case expire i deadline was due =>
    by_cases same : id = i
    · subst same
      simp at armed
    · exact h id d (by simpa [same] using armed)
  case sendTimeout i q sending send | quitTimeout i sending done =>
    by_cases same : id = i
    · subst same
      simp at armed
    · exact h id d (by simpa [same] using armed)
  case setTimeout fn delay js =>
    by_cases same : id = tm.counter + 1
    · simp [same]
    · simp only [AList.mem_insert]
      exact .inr (h id d (by simpa [same] using armed))
  case setInterval fn delay js =>
    simp only [AList.mem_insert]
    exact .inr (h id d armed)
  case clearOther i e js found call =>
    exact (cancel_mem found id).mp (h id d armed)
  case clearTimeout i e js found kind =>
    have old : tm.afterFuncs id = .armed d := by
      by_cases same : id = i
      · subst same
        cases was : tm.afterFuncs id <;> simp [stopTimer, cancel, was, AfterFunc.stop] at armed
      · simpa [stopTimer, cancel, same] using armed
    exact (cancel_mem found id).mp (h id d old)
  case clearInterval i e js found kind =>
    exact (cancel_mem found id).mp (h id d armed)
  case startTimeout i e q b looping recv isOpen found live |
      freeTimeout i e q b looping recv isOpen found live =>
    have queued : .timeout i ∈ tm.pending.buffer := by
      rw [GoChan.recv_eq_some.mp recv]
      exact List.mem_cons_self
    have other : id ≠ i := by
      rintro rfl
      rw [progress.returned id queued] at armed
      cases armed
    simp only [AList.mem_erase]
    exact ⟨other, h id d armed⟩
  case freeAll draining empty =>
    exfalso
    by_cases present : id ∈ tm.timers
    · simp only [if_pos present] at armed
      cases was : tm.afterFuncs id <;> simp [was, AfterFunc.stop] at armed
    · simp only [if_neg present] at armed
      exact present (h id d armed)
  all_goals exact h id d armed

/-- The goroutines of intervals have returned, those of one-shot timers neither run nor are going
to be started, and nothing is queued or registered. -/
structure Quiescent (tm : TimerManager) : Prop where
  loops : ∀ id, (tm.loops id).running = false
  unarmed : ∀ id d, tm.afterFuncs id ≠ .armed d
  unsent : ∀ id, tm.afterFuncs id ≠ .sending
  queue : tm.pending.buffer = []
  hasPending : hasPending tm = false

/-- No one-shot timer has expired and is still at its `select` when `Close` frees the entries. -/
def FiringsOver (tm : TimerManager) (a : Action) : Prop :=
  a = .freeAll → ∀ id, tm.afterFuncs id ≠ .sending

/-- `Close` finds all firings over, and no timer is registered after it. -/
structure InTime (tm : TimerManager) (a : Action) : Prop where
  firings : FiringsOver tm a
  registers : RegistersInTime tm a

/-- What the phases of `Close` rest on. -/
structure Closing (tm : TimerManager) : Prop where
  counted : Counted tm.loops tm.wg
  armed : ∀ id d, tm.afterFuncs id = .armed d → id ∈ tm.timers
  waited : tm.main = .draining ∨ tm.main = .closed → ∀ id, (tm.loops id).running = false
  finished : tm.main = .closed → tm.timers = ∅ ∧ tm.pending.buffer = [] ∧
    ∀ id, tm.afterFuncs id ≠ .sending

theorem closing_new : Closing newTimerManager where
  counted := ⟨[], List.nodup_nil, by simp [newTimerManager, IntervalLoop.running], rfl⟩
  armed := by simp [newTimerManager]
  waited := by simp [newTimerManager]
  finished := by simp [newTimerManager]

/-- Where no timer is registered no goroutine of an interval is started. -/
theorem Transition.loops_quiet (tr : Transition tm a tm' ev)
    (noTimer : tm.main.runsJS = false ∨ a.noTimer)
    (quiet : ∀ id, (tm.loops id).running = false) : tm'.loops = tm.loops := by
  have running {id : Int} {l : IntervalLoop} (h : tm.loops id = l) : l.running = false := h ▸ quiet id
  cases tr
  case receiveTick id selecting ready => cases running selecting
  case seeClosed id ticked closed | seeOpen id ticked isOpen => cases running ticked
  case seeEntry id looking present | seeNothing id looking absent => cases running looking
  case sendInterval id q sending send => cases running sending
  case quitInterval id done waiting =>
    rcases waiting with waiting | waiting <;> cases running waiting
  case setInterval fn delay js =>
    rcases noTimer with noJS | noTimer
    · rw [noJS] at js
      cases js
    · cases noTimer rfl
  all_goals rfl

/-- The drain loop is entered when the wait group is at zero, and left for good. -/
theorem Transition.waited_origin (tr : Transition tm a tm' ev)
    (after : tm'.main = .draining ∨ tm'.main = .closed) :
    tm.main = .draining ∨ tm.main = .closed ∨ (tm.wg = 0 ∧ tm'.loops = tm.loops) := by
  cases tr
  case closeWait waiting zero => exact .inr (.inr ⟨zero, rfl⟩)
  case freeAll draining empty => exact .inl draining
  case processBegin idle isOpen | skip looping nothing recv | startTimeout looping isOpen found live recv |
      freeTimeout looping isOpen found canceled recv | startInterval looping isOpen found live recv |
      timeoutReturn calling | intervalReturn calling | processEnd looping empty |
      closeBegin idle | closeDone closing =>
    rcases after with after | after <;> cases after
  all_goals exact after.elim .inl fun closed => .inr (.inl closed)

theorem Closing.waited_step (inv : Closing tm) (tr : Transition tm a tm' ev) (ok : InTime tm a)
    (after : tm'.main = .draining ∨ tm'.main = .closed) :
    ∀ id, (tm'.loops id).running = false := by
  rcases tr.waited_origin after with draining | closed | ⟨zero, same⟩
  · have quiet := inv.waited (.inl draining)
    rw [tr.loops_quiet (.inl (by rw [draining]; rfl)) quiet]
    exact quiet
  · have quiet := inv.waited (.inr closed)
    rw [tr.loops_quiet (.inr (ok.registers closed)) quiet]
    exact quiet
  · have counted := inv.counted
    rw [zero] at counted
    rw [same]
    exact counted.none_running

/-- After `Close` a step changes neither the map nor the channel, and starts no goroutine. -/
theorem Closing.finished_step (inv : Closing tm) (tr : Transition tm a tm' ev) (ok : InTime tm a)
    (closed : tm'.main = .closed) :
    tm'.timers = ∅ ∧ tm'.pending.buffer = [] ∧ ∀ id, tm'.afterFuncs id ≠ .sending := by
  have kept (id : Int) {f : AfterFunc} (unsent : ∀ i, tm.afterFuncs i ≠ .sending)
      (other : f ≠ .sending) : ∀ i, Function.update tm.afterFuncs id f i ≠ .sending := by
    intro i
    by_cases same : i = id
    · subst same
      simpa using other
    · simpa [same] using unsent i
  cases tr
  case expire id deadline armed due =>
    obtain ⟨empty, _⟩ := inv.finished closed
    have present := inv.armed id deadline armed
    rw [empty] at present
    exact absurd present (AList.notMem_empty id)
  case sendTimeout id q sending send => exact absurd sending ((inv.finished closed).2.2 id)
  case quitTimeout id sending done =>
    obtain ⟨empty, queue, unsent⟩ := inv.finished closed
    exact ⟨empty, queue, kept id unsent (by decide)⟩
  case sendInterval id q sending send =>
    have quiet := inv.waited (.inr closed) id
    rw [sending] at quiet
    cases quiet
  case setTimeout fn delay js | setInterval fn delay js => cases ok.registers closed rfl
  case clearOther id e js found call | clearTimeout id e js found kind |
      clearInterval id e js found kind =>
    rw [(inv.finished closed).1, AList.lookup_empty] at found
    cases found
  case freeAll draining empty =>
    refine ⟨rfl, empty, fun id => ?_⟩
    have unsent := ok.firings rfl id
    by_cases present : id ∈ tm.timers
    · simp only [if_pos present]
      cases was : tm.afterFuncs id <;> simp_all [AfterFunc.stop]
    · simpa only [if_neg present] using unsent
  case drain c q draining recv =>
    rw [show tm.main = .closed from closed] at draining
    cases draining
  case processBegin idle isOpen | skip looping nothing recv | startTimeout looping isOpen found live recv |
      freeTimeout looping isOpen found canceled recv | startInterval looping isOpen found live recv |
      timeoutReturn calling | intervalReturn calling | processEnd looping empty |
      closeBegin idle | closeDone closing | closeWait waiting zero => cases closed
  all_goals exact inv.finished closed

theorem Closing.step (inv : Closing tm) (recorded : Recorded tm log) (progress : Progress tm)
    (tr : Transition tm a tm' ev) (ok : InTime tm a) : Closing tm' where
  counted := tr.counted recorded inv.counted
  armed := fun _ _ armed => tr.armed_entry progress inv.armed armed
  waited := inv.waited_step tr ok
  finished := inv.finished_step tr ok

theorem Closing.quiescent (inv : Closing tm) (closed : tm.main = .closed) : Quiescent tm := by
  obtain ⟨empty, queue, unsent⟩ := inv.finished closed
  refine ⟨inv.waited (.inr closed), fun id d armed => ?_, unsent, queue, ?_⟩
  · have present := inv.armed id d armed
    rw [empty] at present
    exact AList.notMem_empty id present
  · rw [hasPending, empty, queue]
    rfl

/-- After `Close` the event-loop thread stays there. -/
theorem Transition.main_closed (tr : Transition tm a tm' ev) (main : tm.main = .closed)
    (closed : tm.closed = true) : tm'.main = .closed := by
  cases tr
  case processBegin idle isOpen =>
    rw [isOpen] at closed
    cases closed
  all_goals first | exact main | simp_all

theorem Transition.freeAll_draining (tr : Transition tm .freeAll tm' ev) :
    tm.main = .draining ∧ tm'.main = .closed ∧ tm'.afterFuncs =
      fun id => if id ∈ tm.timers then (tm.afterFuncs id).stop else tm.afterFuncs id := by
  cases tr
  case freeAll draining empty => exact ⟨draining, rfl, rfl⟩
  all_goals simp_all [Action.noArgument, Action.clears]

theorem Progress.closed_of_main (progress : Progress tm) (main : tm.main = .closed) :
    tm.closed = true := by
  by_contra isOpen
  have runs := progress.main.mpr (by simpa using isOpen)
  rw [main] at runs
  cases runs

/-- Once quiescent, quiescent for ever, unless a timer is registered. -/
theorem Closing.always {log : List Event} (inv : Closing tm) (recorded : Recorded tm log)
    (progress : Progress tm) (closed : tm.main = .closed) :
    Always Timers.step Action.noTimer Quiescent tm := by
  refine always_of_invariant _
    (I := fun tm => Closing tm ∧ Sound tm ∧ tm.main = .closed)
    ?_ (fun _ inv => inv.1.quiescent inv.2.2) ⟨inv, ⟨log, recorded, progress⟩, closed⟩
  rintro s a t ev ⟨inv, sound, main⟩ noTimer hs
  obtain ⟨log, recorded, progress⟩ := id sound
  have tr := step_transition hs
  have ok : InTime s a := by
    refine ⟨?_, fun _ => noTimer⟩
    rintro rfl
    have draining := tr.freeAll_draining.1
    rw [main] at draining
    cases draining
  exact ⟨inv.step recorded progress tr ok, sound.step hs,
    tr.main_closed main (progress.closed_of_main main)⟩

/-- A registration leaves a timer armed or the goroutine of an interval running. -/
theorem Transition.not_quiescent (tr : Transition tm a tm' ev) (timer : ¬ a.noTimer) :
    ¬ Quiescent tm' := by
  intro quiescent
  refine timer fun set => ?_
  cases tr
  case noArgument js call => exact call
  case setTimeout fn delay js =>
    exact absurd (Function.update_self _ _ _) (quiescent.unarmed (tm.counter + 1) _)
  case setInterval fn delay js =>
    have quiet := quiescent.loops (tm.counter + 1)
    simp only [Function.update_self] at quiet
    cases quiet
  case clearMiss js miss call | clearOther js found call =>
    cases a <;> simp_all [Action.clears, Action.registers]
  all_goals cases set

end Timers
