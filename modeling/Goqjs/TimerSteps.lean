import Goqjs.Timers

/-!
# What a timer step does to each component

For each component of the state, where its new value can come from; for each
kind of event, what the step that emits it has checked. The invariants of the
later modules use these statements and never unfold the step function.
-/

namespace Timers

open Runs

variable {tm tm' : TimerManager} {a : Action} {ev : List Event}

/-- An entry is kept, cancelled or new. -/
theorem Transition.lookup_origin (tr : Transition tm a tm' ev) {id : Int} {e' : TimerEntry}
    (h : tm'.timers.lookup id = some e') :
    tm.timers.lookup id = some e' ∨
    (∃ e, tm.timers.lookup id = some e ∧ e' = { e with canceled := true } ∧
      ev = [.cleared id]) ∨
    (id = tm.counter + 1 ∧ e'.canceled = false ∧
      ev = [.registered id e'.fn e'.interval tm.now e'.delay]) := by
  cases tr
  case setTimeout | setInterval =>
    by_cases hid : id = tm.counter + 1
    · subst hid
      simp at h
      subst h
      simp
    · left
      simpa [AList.lookup_insert_ne hid] using h
  case clearOther c e _ _ _ | clearTimeout c e _ _ _ | clearInterval c e _ _ _ =>
    by_cases hid : id = c
    · subst hid
      simp [cancel, stopTimer, stopTicker] at h
      subst h
      simp_all
    · left
      simpa [cancel, stopTimer, stopTicker, AList.lookup_insert_ne hid] using h
  case startTimeout c _ _ _ _ _ _ _ _ | freeTimeout c _ _ _ _ _ _ _ _ =>
    by_cases hid : id = c
    · subst hid
      simp at h
    · left
      simpa [AList.lookup_erase_ne hid] using h
  case freeAll => simp at h
  all_goals exact .inl h

/-- An entry stays until its own closure is run or `Close` frees it. -/
theorem Transition.lookup_kept (tr : Transition tm a tm' ev) {id : Int} {e : TimerEntry}
    (h : tm.timers.lookup id = some e) (bound : id ≤ tm.counter) :
    (∃ e', tm'.timers.lookup id = some e' ∧ e'.fn = e.fn ∧ e'.interval = e.interval ∧
      (e'.canceled = e.canceled ∨ e'.canceled = true ∧ ev = [.cleared id])) ∨
    (tm'.timers.lookup id = none ∧ tm'.main = .calling (.timeout id) e.fn ∧
      e.canceled = false ∧ ev = [.taken (.timeout id), .started id e.fn]) ∨
    (tm'.timers.lookup id = none ∧ tm'.main = .processing true ∧
      e.canceled = true ∧ ev = [.taken (.timeout id), .freed id e.fn]) ∨
    (tm.main = .draining ∧ tm'.main = .closed ∧ tm'.timers = ∅ ∧
      ev = tm.timers.entries.map (fun x => Event.freed x.1 x.2.fn) ++ [.closeReturned]) := by
  cases tr
  case setTimeout | setInterval =>
    have hid : id ≠ tm.counter + 1 := by omega
    exact .inl ⟨e, by simpa [AList.lookup_insert_ne hid] using h, rfl, rfl, .inl rfl⟩
  case clearOther c e' _ found _ | clearTimeout c e' _ found _ | clearInterval c e' _ found _ =>
    by_cases hid : id = c
    · subst hid
      obtain rfl : e = e' := Option.some.inj (h.symm.trans found)
      exact .inl ⟨_, AList.lookup_insert _, rfl, rfl, .inr ⟨rfl, rfl⟩⟩
    · exact .inl ⟨e, by simpa [cancel, stopTimer, stopTicker, AList.lookup_insert_ne hid] using h,
        rfl, rfl, .inl rfl⟩
  case startTimeout c e' _ _ _ _ _ found live =>
    by_cases hid : id = c
    · subst hid
      obtain rfl : e = e' := Option.some.inj (h.symm.trans found)
      exact .inr (.inl ⟨AList.lookup_erase _ _, rfl, live, rfl⟩)
    · exact .inl ⟨e, by simpa [AList.lookup_erase_ne hid] using h, rfl, rfl, .inl rfl⟩
  case freeTimeout c e' _ _ _ _ _ found canceled =>
    by_cases hid : id = c
    · subst hid
      obtain rfl : e = e' := Option.some.inj (h.symm.trans found)
      exact .inr (.inr (.inl ⟨AList.lookup_erase _ _, rfl, canceled, rfl⟩))
    · exact .inl ⟨e, by simpa [AList.lookup_erase_ne hid] using h, rfl, rfl, .inl rfl⟩
  case freeAll draining _ => exact .inr (.inr (.inr ⟨draining, rfl, rfl, rfl⟩))
  all_goals exact .inl ⟨e, h, rfl, rfl, .inl rfl⟩

theorem Transition.counter_le (tr : Transition tm a tm' ev) : tm.counter ≤ tm'.counter := by
  cases tr <;> first | exact Int.le_refl _ | exact Int.le_add_of_nonneg_right (by decide)

theorem Transition.closed_mono (tr : Transition tm a tm' ev) (h : tm.closed = true) :
    tm'.closed = true := by
  cases tr <;> first | rfl | exact h

theorem Transition.afterFunc_origin (tr : Transition tm a tm' ev) (id : Int) :
    tm'.afterFuncs id = tm.afterFuncs id ∨
    (tm'.afterFuncs id = .sending ∧ ev = [.fired id] ∧
      ∃ d, tm.afterFuncs id = .armed d ∧ d ≤ tm.now) ∨
    (tm'.afterFuncs id = .returned ∧ tm.afterFuncs id = .sending) ∨
    (tm'.afterFuncs id = .stopped ∧ ∃ d, tm.afterFuncs id = .armed d) ∨
    (∃ d fn t dl, tm'.afterFuncs id = .armed d ∧ id = tm.counter + 1 ∧
      ev = [.registered id fn false t dl]) := by
  cases tr
  case expire c d armed due =>
    by_cases hid : id = c
    · subst hid
      exact .inr (.inl ⟨by simp, rfl, d, armed, due⟩)
    · exact .inl (by simp [hid])
  case sendTimeout c q sending send =>
    by_cases hid : id = c
    · subst hid
      exact .inr (.inr (.inl ⟨by simp, sending⟩))
    · exact .inl (by simp [hid])
  case quitTimeout c sending send =>
    by_cases hid : id = c
    · subst hid
      exact .inr (.inr (.inl ⟨by simp, sending⟩))
    · exact .inl (by simp [hid])
  case setTimeout fn delay _ =>
    by_cases hid : id = tm.counter + 1
    · subst hid
      exact .inr (.inr (.inr (.inr ⟨tm.now + timeoutDelay delay, _, _, _, by simp, rfl, rfl⟩)))
    · exact .inl (by simp [hid])
  case clearTimeout c e _ _ _ =>
    by_cases hid : id = c
    · subst hid
      cases hf : tm.afterFuncs id <;> simp [stopTimer, cancel, AfterFunc.stop, hf]
    · exact .inl (by simp [stopTimer, cancel, hid])
  case freeAll =>
    by_cases hid : id ∈ tm.timers
    · cases hf : tm.afterFuncs id <;> simp [AfterFunc.stop, hf, hid]
    · exact .inl (by simp [hid])
  all_goals exact .inl rfl

theorem Transition.tick_origin (tr : Transition tm a tm' ev) {id : Int}
    (h : (tm'.tickers id).tick = true) :
    (tm.tickers id).tick = true ∨ ev = [.fired id] := by
  cases tr
  case tick c _ _ =>
    by_cases hid : id = c
    · exact .inr (by rw [hid])
    · exact .inl (by simpa [hid] using h)
  case receiveTick c _ _ =>
    by_cases hid : id = c
    · subst hid
      simp at h
    · exact .inl (by simpa [hid] using h)
  case setInterval =>
    by_cases hid : id = tm.counter + 1
    · subst hid
      simp at h
    · exact .inl (by simpa [hid] using h)
  case clearInterval c _ _ _ _ =>
    by_cases hid : id = c
    · subst hid
      exact .inl (by simpa [stopTicker, cancel, Ticker.stop] using h)
    · exact .inl (by simpa [stopTicker, cancel, hid] using h)
  case freeAll =>
    by_cases hid : id ∈ tm.timers
    · exact .inl (by simpa [Ticker.stop, hid] using h)
    · exact .inl (by simpa [hid] using h)
  all_goals exact .inl h

/-- The goroutine of `setInterval` holds a tick at these points. -/
def IntervalLoop.holdsTick : IntervalLoop → Bool
  | .ticked => true
  | .looking => true
  | .sending => true
  | _ => false

theorem Transition.loop_origin (tr : Transition tm a tm' ev) {id : Int}
    (h : (tm'.loops id).holdsTick = true) :
    (tm.loops id).holdsTick = true ∨ (tm.tickers id).tick = true := by
  cases tr
  case receiveTick c _ ready =>
    by_cases hid : id = c
    · exact .inr (by rw [hid]; exact ready)
    · exact .inl (by simpa [hid] using h)
  case seeOpen c at_ _ | seeEntry c at_ _ =>
    by_cases hid : id = c
    · exact .inl (by rw [hid, at_]; rfl)
    · exact .inl (by simpa [hid] using h)
  case seeClosed c _ _ | seeNothing c _ _ | sendInterval c _ _ _ | quitInterval c _ _ =>
    by_cases hid : id = c
    · subst hid
      simp [IntervalLoop.holdsTick] at h
    · exact .inl (by simpa [hid] using h)
  case setInterval =>
    by_cases hid : id = tm.counter + 1
    · subst hid
      simp [IntervalLoop.holdsTick] at h
    · exact .inl (by simpa [hid] using h)
  all_goals exact .inl h

theorem Transition.loop_started (tr : Transition tm a tm' ev) {id : Int}
    (h : tm'.loops id ≠ .unset) :
    tm.loops id ≠ .unset ∨ ∃ fn t d, ev = [.registered id fn true t d] := by
  cases tr
  case receiveTick c at_ _ | seeClosed c at_ _ | seeOpen c at_ _ | seeEntry c at_ _ |
      seeNothing c at_ _ | sendInterval c _ at_ _ =>
    by_cases hid : id = c
    · exact .inl (by rw [hid, at_]; simp)
    · exact .inl (by simpa [hid] using h)
  case quitInterval c _ at_ =>
    by_cases hid : id = c
    · subst hid
      exact .inl (by rcases at_ with at_ | at_ <;> simp [at_])
    · exact .inl (by simpa [hid] using h)
  case setInterval =>
    by_cases hid : id = tm.counter + 1
    · exact .inr ⟨_, _, _, by rw [hid]⟩
    · exact .inl (by simpa [hid] using h)
  all_goals exact .inl h

theorem Transition.pending_origin (tr : Transition tm a tm' ev) {c : Closure}
    (h : c ∈ tm'.pending.buffer) :
    c ∈ tm.pending.buffer ∨
    (∃ id, c = .timeout id ∧ tm.afterFuncs id = .sending ∧ tm'.afterFuncs id = .returned ∧
      ev = [.queued c]) ∨
    (∃ id, c = .interval id ∧ tm.loops id = .sending ∧ ev = [.queued c]) := by
  cases tr
  case sendTimeout id q sending send =>
    rw [(GoChan.send_eq_some.mp send).2, List.mem_append] at h
    rcases h with h | h
    · exact .inl h
    · obtain rfl := List.mem_singleton.mp h
      exact .inr (.inl ⟨id, rfl, sending, by simp, rfl⟩)
  case sendInterval id q sending send =>
    rw [(GoChan.send_eq_some.mp send).2, List.mem_append] at h
    rcases h with h | h
    · exact .inl h
    · obtain rfl := List.mem_singleton.mp h
      exact .inr (.inr ⟨id, rfl, sending, rfl⟩)
  case skip q _ _ recv _ | startTimeout q _ _ recv _ _ _ | freeTimeout q _ _ recv _ _ _ |
      startInterval q _ _ recv _ _ _ | drain q _ recv =>
    exact .inl (by rw [GoChan.recv_eq_some.mp recv]; exact List.mem_cons_of_mem _ h)
  all_goals exact .inl h

/-- The way of a timeout's firing from its arming to `tm.pending`. -/
def OnItsWay (tm : TimerManager) (id : Int) : Prop :=
  (∃ d, tm.afterFuncs id = .armed d) ∨ tm.afterFuncs id = .sending ∨
    .timeout id ∈ tm.pending.buffer

theorem Transition.onItsWay_kept (tr : Transition tm a tm' ev) {id : Int}
    (h : OnItsWay tm id) (bound : id ≤ tm.counter) :
    OnItsWay tm' id ∨ tm.done = true ∨ tm.main = .draining ∨ ev = [.cleared id] ∨
      .taken (.timeout id) ∈ ev := by
  have other : tm'.afterFuncs id = tm.afterFuncs id →
      (.timeout id ∈ tm.pending.buffer → .timeout id ∈ tm'.pending.buffer) → OnItsWay tm' id := by
    intro hf hq
    rcases h with ⟨d, h⟩ | h | h
    · exact .inl ⟨d, hf.trans h⟩
    · exact .inr (.inl (hf.trans h))
    · exact .inr (.inr (hq h))
  cases tr
  case expire c d armed due =>
    by_cases hid : id = c
    · exact .inl (.inr (.inl (by simp [hid])))
    · exact .inl (other (by simp [hid]) (fun hq => hq))
  case sendTimeout c q sending send =>
    have hq := (GoChan.send_eq_some.mp send).2
    by_cases hid : id = c
    · exact .inl (.inr (.inr (by simp [hid, hq])))
    · exact .inl (other (by simp [hid]) (fun h => by simp [hq, h]))
  case quitTimeout c sending done => exact .inr (.inl done)
  case sendInterval c q _ send =>
    have hq := (GoChan.send_eq_some.mp send).2
    exact .inl (other rfl (fun h => by simp [hq, h]))
  case setTimeout =>
    have hid : id ≠ tm.counter + 1 := by omega
    exact .inl (other (by simp [hid]) (fun hq => hq))
  case clearTimeout c _ _ _ _ =>
    by_cases hid : id = c
    · exact .inr (.inr (.inr (.inl (by rw [hid]))))
    · exact .inl (other (by simp [stopTimer, cancel, hid]) (fun hq => hq))
  case skip c q _ _ recv _ =>
    by_cases hc : c = .timeout id
    · exact .inr (.inr (.inr (.inr (by simp [hc]))))
    · refine .inl (other rfl (fun hq => ?_))
      rw [GoChan.recv_eq_some.mp recv] at hq
      exact List.mem_of_ne_of_mem (Ne.symm hc) hq
  case startTimeout c _ q _ _ recv _ _ _ | freeTimeout c _ q _ _ recv _ _ _ =>
    by_cases hc : c = id
    · exact .inr (.inr (.inr (.inr (by simp [hc]))))
    · refine .inl (other rfl (fun hq => ?_))
      rw [GoChan.recv_eq_some.mp recv] at hq
      exact List.mem_of_ne_of_mem (by simpa using Ne.symm hc) hq
  case startInterval c _ q _ _ recv _ _ _ =>
    refine .inl (other rfl (fun hq => ?_))
    rw [GoChan.recv_eq_some.mp recv] at hq
    exact List.mem_of_ne_of_mem (by simp) hq
  case drain draining _ | freeAll draining _ => exact .inr (.inr (.inl draining))
  all_goals exact .inl (other rfl (fun hq => hq))

theorem Transition.onItsWay_origin (tr : Transition tm a tm' ev) {id : Int}
    (h : OnItsWay tm' id) :
    OnItsWay tm id ∨ ∃ fn t d, ev = [.registered id fn false t d] := by
  rcases h with ⟨d, h⟩ | h | h
  · rcases tr.afterFunc_origin id with same | ⟨hr, _⟩ | ⟨hr, _⟩ | ⟨hr, _⟩ |
        ⟨_, fn, t, dl, _, _, hev⟩
    · exact .inl (.inl ⟨d, same ▸ h⟩)
    · rw [hr] at h; cases h
    · rw [hr] at h; cases h
    · rw [hr] at h; cases h
    · exact .inr ⟨fn, t, dl, hev⟩
  · rcases tr.afterFunc_origin id with same | ⟨_, _, d, old, _⟩ | ⟨hr, _⟩ | ⟨hr, _⟩ |
        ⟨_, _, _, _, hr, _⟩
    · exact .inl (.inr (.inl (same ▸ h)))
    · exact .inl (.inl ⟨d, old⟩)
    all_goals
      rw [hr] at h
      cases h
  · rcases tr.pending_origin h with old | ⟨c, hc, sending, _⟩ | ⟨c, hc, _⟩
    · exact .inl (.inr (.inr old))
    · cases hc
      exact .inl (.inr (.inl sending))
    · cases hc

/-- The goroutine of an interval that is not told to stop keeps running. -/
theorem Transition.interval_kept (tr : Transition tm a tm' ev) {id : Int}
    (running : (tm.tickers id).running = true)
    (looping : tm.loops id = .selecting ∨ (tm.loops id).holdsTick = true)
    (present : id ∈ tm.timers) (bound : id ≤ tm.counter) :
    ((tm'.tickers id).running = true ∧
      (tm'.loops id = .selecting ∨ (tm'.loops id).holdsTick = true)) ∨
    tm.closed = true ∨ tm.done = true ∨ tm.main = .draining ∨ ev = [.cleared id] := by
  cases tr
  case tick c _ _ =>
    by_cases hid : id = c
    · subst hid
      exact .inl ⟨by simpa using running, looping⟩
    · exact .inl ⟨by simpa [hid] using running, looping⟩
  case receiveTick c _ _ =>
    by_cases hid : id = c
    · subst hid
      exact .inl ⟨by simpa using running, .inr (by simp [IntervalLoop.holdsTick])⟩
    · exact .inl ⟨by simpa [hid] using running, by simpa [hid] using looping⟩
  case seeClosed closed => exact .inr (.inl closed)
  case seeOpen c _ _ | seeEntry c _ _ =>
    by_cases hid : id = c
    · exact .inl ⟨running, .inr (by simp [hid, IntervalLoop.holdsTick])⟩
    · exact .inl ⟨running, by simpa [hid] using looping⟩
  case seeNothing c _ absent =>
    have hid : id ≠ c := fun h => absent (h ▸ present)
    exact .inl ⟨running, by simpa [hid] using looping⟩
  case sendInterval c _ _ _ =>
    by_cases hid : id = c
    · exact .inl ⟨running, .inl (by simp [hid])⟩
    · exact .inl ⟨running, by simpa [hid] using looping⟩
  case quitInterval done _ => exact .inr (.inr (.inl done))
  case setInterval =>
    have hid : id ≠ tm.counter + 1 := by omega
    exact .inl ⟨by simpa [hid] using running, by simpa [hid] using looping⟩
  case clearInterval c _ _ _ _ =>
    by_cases hid : id = c
    · exact .inr (.inr (.inr (.inr (by rw [hid]))))
    · exact .inl ⟨by simpa [stopTicker, cancel, hid] using running, looping⟩
  case freeAll draining _ => exact .inr (.inr (.inr (.inl draining)))
  all_goals exact .inl ⟨running, looping⟩

/-- A callback is started by a receive of `ProcessPending` alone. -/
theorem Transition.started_mem (tr : Transition tm a tm' ev) {id : Int} {fn : Nat}
    (h : .started id fn ∈ ev) :
    ∃ c q b e, a = .receive ∧ tm.main = .processing b ∧ tm.pending.recv = some (c, q) ∧
      c.id = id ∧ tm.closed = false ∧ tm.timers.lookup id = some e ∧ e.canceled = false ∧
      e.fn = fn ∧ ev = [.taken c, .started id fn] ∧
      tm' = { tm with pending := q, main := .calling c fn,
                      timers := if c = .timeout id then tm.timers.erase id else tm.timers } := by
  cases tr <;> simp at h
  case startTimeout c e q b looping recv isOpen found live =>
    obtain ⟨rfl, rfl⟩ := h
    exact ⟨_, _, _, _, rfl, looping, recv, rfl, isOpen, found, live, rfl, rfl, by simp⟩
  case startInterval c e q b looping recv isOpen found live =>
    obtain ⟨rfl, rfl⟩ := h
    exact ⟨_, _, _, _, rfl, looping, recv, rfl, isOpen, found, live, rfl, rfl, by simp⟩

/-- A call of `setTimeout` or `setInterval`. -/
def Action.registers : Action → Bool
  | .setTimeout _ _ => true
  | .setInterval _ _ => true
  | _ => false

/-- No timer is registered: the call, if it is one, has no argument. -/
def Action.noTimer (a : Action) : Prop := a.registers = true → a.noArgument = true

/-- No timer is registered after `Close`. -/
def RegistersInTime (tm : TimerManager) (a : Action) : Prop := tm.main = .closed → a.noTimer

theorem registersInTime_of_mem {as : List Action} (h : ∀ a ∈ as, a.registers = false) :
    AllSteps step RegistersInTime tm as := by
  induction as generalizing tm with
  | nil => trivial
  | cons a as ih =>
    refine ⟨fun _ set => ?_, fun t _ _ => ih fun b hb => h b (List.mem_cons_of_mem a hb)⟩
    rw [h a List.mem_cons_self] at set
    cases set

theorem Transition.registered_mem (tr : Transition tm a tm' ev) {id : Int} {fn t d : Nat}
    {iv : Bool} (h : .registered id fn iv t d ∈ ev) :
    id = tm.counter + 1 ∧ tm'.counter = id ∧ a.registers = true ∧
      ev = [.registered id fn iv t d] := by
  cases tr <;> simp at h
  all_goals
    obtain ⟨rfl, rfl, rfl, rfl, rfl⟩ := h
    exact ⟨rfl, rfl, rfl, rfl⟩

theorem Transition.registered_entry (tr : Transition tm a tm' ev) {id : Int} {fn t d : Nat}
    {iv : Bool} (h : .registered id fn iv t d ∈ ev) : id ∈ tm'.timers := by
  cases tr <;> simp at h <;> simp [h.1]

theorem Transition.registered_timeout (tr : Transition tm a tm' ev) {id : Int} {fn t d : Nat}
    (h : .registered id fn false t d ∈ ev) : ∃ dl, tm'.afterFuncs id = .armed dl := by
  cases tr <;> simp at h
  obtain ⟨rfl, rfl, rfl, rfl⟩ := h
  exact ⟨_, Function.update_self _ _ _⟩

theorem Transition.registered_interval (tr : Transition tm a tm' ev) {id : Int} {fn t d : Nat}
    (h : .registered id fn true t d ∈ ev) :
    (tm'.tickers id).running = true ∧ tm'.loops id = .selecting := by
  cases tr <;> simp at h
  obtain ⟨rfl, rfl, rfl, rfl⟩ := h
  simp

theorem Transition.taken_mem (tr : Transition tm a tm' ev) {c : Closure} (h : .taken c ∈ ev) :
    tm.pending.buffer = c :: tm'.pending.buffer ∧ tm'.afterFuncs = tm.afterFuncs ∧
      ∀ id, c = .timeout id → tm.closed = false → tm'.timers.lookup id = none := by
  cases tr <;> simp at h
  case skip recv nothing =>
    subst h
    refine ⟨GoChan.recv_eq_some.mp recv, rfl, ?_⟩
    rintro id rfl isOpen
    rcases nothing with closed | none | ⟨_, hc, _⟩
    · rw [isOpen] at closed
      cases closed
    · exact none
    · cases hc
  case startTimeout recv _ _ _ | freeTimeout recv _ _ _ =>
    subst h
    refine ⟨GoChan.recv_eq_some.mp recv, rfl, ?_⟩
    rintro id hc _
    cases hc
    exact AList.lookup_erase _ _
  case startInterval recv _ _ _ =>
    subst h
    exact ⟨GoChan.recv_eq_some.mp recv, rfl, by rintro id hc; cases hc⟩

theorem Transition.cleared_mem (tr : Transition tm a tm' ev) {id : Int}
    (h : .cleared id ∈ ev) :
    ev = [.cleared id] ∧ ∀ e, tm'.timers.lookup id = some e → e.canceled = true := by
  cases tr <;> simp at h
  case clearMiss c _ miss _ =>
    subst h
    exact ⟨rfl, fun e he => by rw [miss] at he; cases he⟩
  all_goals
    subst h
    refine ⟨rfl, fun e he => ?_⟩
    simp [cancel, stopTimer, stopTicker] at he
    rw [← he]

theorem Transition.closeBegan_mem (tr : Transition tm a tm' ev) (h : .closeBegan ∈ ev) :
    tm'.closed = true := by
  cases tr <;> simp at h
  rfl

/-- A callback is freed with its entry's removal or after its last call. -/
theorem Transition.freed_mem (tr : Transition tm a tm' ev) {id : Int} {fn : Nat}
    (h : .freed id fn ∈ ev) :
    (tm.main = .calling (.timeout id) fn ∧ ev = [.ended id, .freed id fn]) ∨
    (∃ e b, tm.timers.lookup id = some e ∧ e.fn = fn ∧ tm.main = .processing b ∧
      ev = [.taken (.timeout id), .freed id fn]) ∨
    (∃ e, tm.timers.lookup id = some e ∧ e.fn = fn ∧ tm.main = .draining ∧
      ev = tm.timers.entries.map (fun x => Event.freed x.1 x.2.fn) ++ [.closeReturned]) := by
  cases tr <;> simp at h
  case freeTimeout c e q b looping _ _ found _ =>
    obtain ⟨rfl, rfl⟩ := h
    exact .inr (.inl ⟨e, b, found, rfl, looping, rfl⟩)
  case timeoutReturn c f calling =>
    obtain ⟨rfl, rfl⟩ := h
    exact .inl ⟨calling, rfl⟩
  case freeAll draining _ =>
    obtain ⟨e, mem, rfl⟩ := h
    have found : tm.timers.lookup id = some e := AList.mem_lookup_iff.mpr mem
    exact .inr (.inr ⟨e, found, rfl, draining, rfl⟩)

/-- `ProcessPending` has been entered and has not returned. -/
def Main.inProcess : Main → Bool
  | .processing _ => true
  | .calling _ _ => true
  | _ => false

theorem Transition.inProcess_origin (tr : Transition tm a tm' ev)
    (h : tm'.main.inProcess = true) :
    (tm.main.inProcess = true ∧ ∀ b, .processed b ∉ ev) ∨ ev = [.processBegan] := by
  cases tr
  case processBegin => exact .inr rfl
  case processClosed after _ =>
    rcases after with after | after <;> simp [after, Main.inProcess] at h
  case skip looping _ _ | startTimeout looping _ _ _ _ | freeTimeout looping _ _ _ _ |
      startInterval looping _ _ _ _ =>
    exact .inl ⟨by simp [looping, Main.inProcess], by simp⟩
  case timeoutReturn calling | intervalReturn calling =>
    exact .inl ⟨by simp [calling, Main.inProcess], by simp⟩
  case processEnd | closeBegin | closeDone | closeWait | freeAll =>
    simp [Main.inProcess] at h
  all_goals exact .inl ⟨h, by simp⟩

end Timers
