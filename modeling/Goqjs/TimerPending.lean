import Goqjs.TimerSafety

/-!
# Which timers can still run

`Live` reads off the map alone whether some continuation starts a timer's
callback; `canStart_iff_live` shows that it is right in every reachable state
of an open manager. `HasPending` is then compared with it.
-/

namespace Timers

open Runs

variable {tm tm' : TimerManager} {a : Action} {ev log : List Event}

/-- The map holds an entry of `id` that is not cancelled. -/
def Live (tm : TimerManager) (id : Int) : Prop :=
  ∃ e, tm.timers.lookup id = some e ∧ e.canceled = false

theorem Live.mem {id : Int} (h : Live tm id) : id ∈ tm.timers := by
  obtain ⟨e, found, _⟩ := h
  exact AList.lookup_isSome.mp (by rw [found]; rfl)

/-- Some continuation without `setTimeout` and `setInterval` calls starts the
callback of `id`. -/
def CanStart (tm : TimerManager) (id : Int) : Prop :=
  CanEmit step (fun a => a.registers = false) (fun e => ∃ fn, e = .started id fn) tm

theorem live_origin (tr : Transition tm a tm' ev) (noSet : a.registers = false) {id : Int}
    (h : Live tm' id) : Live tm id := by
  obtain ⟨e', found, live⟩ := h
  rcases tr.lookup_origin found with old | ⟨_, _, rfl, _⟩ | ⟨_, _, hev⟩
  · exact ⟨e', old, live⟩
  · cases live
  · obtain ⟨_, _, hset, _⟩ := tr.registered_mem (hev ▸ List.mem_singleton_self _)
    rw [noSet] at hset
    cases hset

theorem live_of_canStart {id : Int} (h : CanStart tm id) : Live tm id := by
  by_contra dead
  refine not_canEmit_of_invariant (I := fun tm => ¬ Live tm id) ?_ dead h
  intro s a t ev dead noSet hs
  have tr := step_transition hs
  refine ⟨fun live => dead (live_origin tr noSet live), ?_⟩
  rintro e mem ⟨fn, rfl⟩
  obtain ⟨_, _, _, e, _, _, _, _, _, found, live, _⟩ := tr.started_mem mem
  exact dead ⟨e, found, live⟩

/-- After `Close` has begun nothing starts. -/
theorem not_canStart_of_closed (closed : tm.closed = true) (id : Int) : ¬ CanStart tm id := by
  refine not_canEmit_of_invariant (I := fun tm => tm.closed = true) ?_ closed
  intro s a t ev closed _ hs
  have tr := step_transition hs
  refine ⟨tr.closed_mono closed, ?_⟩
  rintro e mem ⟨fn, rfl⟩
  obtain ⟨_, _, _, _, _, _, _, _, isOpen, _⟩ := tr.started_mem mem
  rw [closed] at isOpen
  cases isOpen

def Main.isOpen : Main → Bool
  | .idle => true
  | .processing _ => true
  | .calling _ _ => true
  | _ => false

/-- Every timer that is not cancelled has its firing on the way or its goroutine
running, and what is on the way has its entry in the map. -/
structure Progress (tm : TimerManager) : Prop where
  main : tm.main.isOpen = true ↔ tm.closed = false
  done : tm.done = true → tm.closed = true
  timeout : ∀ id e, tm.timers.lookup id = some e → e.interval = false → e.canceled = false →
    tm.closed = false → OnItsWay tm id
  interval : ∀ id e, tm.timers.lookup id = some e → e.interval = true → e.canceled = false →
    tm.closed = false → (tm.tickers id).running = true ∧
      (tm.loops id = .selecting ∨ (tm.loops id).holdsTick = true)
  single : ∀ id, tm.pending.buffer.count (.timeout id) ≤ 1
  returned : ∀ id, .timeout id ∈ tm.pending.buffer → tm.afterFuncs id = .returned
  entry : ∀ id, OnItsWay tm id → tm.closed = false → id ∈ tm.timers
  loopEntry : ∀ id, tm.loops id ≠ .unset → tm.closed = false → id ∈ tm.timers
  intervalEntry : ∀ id, .interval id ∈ tm.pending.buffer → tm.closed = false → id ∈ tm.timers

theorem Progress.not_draining (inv : Progress tm) (isOpen : tm.closed = false) :
    tm.main ≠ .draining := by
  intro draining
  have := inv.main.mpr isOpen
  rw [draining] at this
  cases this

theorem Progress.not_done (inv : Progress tm) (isOpen : tm.closed = false) : tm.done ≠ true := by
  intro done
  rw [inv.done done] at isOpen
  cases isOpen

theorem Transition.open_before (tr : Transition tm a tm' ev) (isOpen : tm'.closed = false) :
    tm.closed = false := by
  cases h : tm.closed with
  | false => rfl
  | true => rw [tr.closed_mono h] at isOpen; cases isOpen

/-- An entry of an open manager leaves the map only with its timeout's closure. -/
theorem Progress.entry_kept (inv : Progress tm) (recorded : Recorded tm log)
    (tr : Transition tm a tm' ev) (isOpen : tm.closed = false) {id : Int}
    (h : id ∈ tm.timers) : id ∈ tm'.timers ∨ .taken (.timeout id) ∈ ev := by
  obtain ⟨e, found⟩ := Option.isSome_iff_exists.mp (AList.lookup_isSome.mpr h)
  rcases tr.lookup_kept found (recorded.bound id e found) with ⟨e', kept, _⟩ | ⟨_, _, _, hev⟩ |
      ⟨_, _, _, hev⟩ | ⟨draining, _⟩
  · exact .inl (AList.lookup_isSome.mp (by rw [kept]; rfl))
  · exact .inr (by simp [hev])
  · exact .inr (by simp [hev])
  · exact absurd draining (inv.not_draining isOpen)

theorem main_step (tr : Transition tm a tm' ev) (inv : tm.main.isOpen = true ↔ tm.closed = false) :
    tm'.main.isOpen = true ↔ tm'.closed = false := by
  cases tr <;> first | exact inv | simp_all [Main.isOpen]

theorem done_step (tr : Transition tm a tm' ev) (main : tm.main.isOpen = true ↔ tm.closed = false)
    (inv : tm.done = true → tm.closed = true) : tm'.done = true → tm'.closed = true := by
  cases tr
  case closeDone closing => simpa [closing, Main.isOpen] using main
  case closeBegin => exact fun _ => rfl
  all_goals exact inv

theorem single_step (tr : Transition tm a tm' ev)
    (returned : ∀ id, .timeout id ∈ tm.pending.buffer → tm.afterFuncs id = .returned)
    (inv : ∀ id, tm.pending.buffer.count (.timeout id) ≤ 1) (id : Int) :
    tm'.pending.buffer.count (.timeout id) ≤ 1 := by
  have popped : ∀ c q, tm.pending.recv = some (c, q) → q.buffer.count (.timeout id) ≤ 1 := by
    intro c q recv
    have := inv id
    rw [GoChan.recv_eq_some.mp recv, List.count_cons] at this
    omega
  cases tr
  case sendTimeout c q sending send =>
    have absent : tm.pending.buffer.count (.timeout c) = 0 := by
      apply List.count_eq_zero.mpr
      intro mem
      rw [returned c mem] at sending
      cases sending
    simp only [(GoChan.send_eq_some.mp send).2, List.count_append, List.count_singleton]
    by_cases hid : id = c
    · simp [hid, absent]
    · have := inv id
      simp [Ne.symm hid, this]
  case sendInterval c q _ send =>
    have := inv id
    simpa [(GoChan.send_eq_some.mp send).2, List.count_append] using this
  case skip recv _ | startTimeout recv _ _ _ | freeTimeout recv _ _ _ | startInterval recv _ _ _ |
      drain recv => exact popped _ _ recv
  all_goals exact inv id

theorem Progress.step (inv : Progress tm) (recorded : Recorded tm log)
    (tr : Transition tm a tm' ev) : Progress tm' where
  main := main_step tr inv.main
  done := done_step tr inv.main inv.done
  timeout := by
    intro id e found kind live isOpen
    have open_ := tr.open_before isOpen
    rcases tr.lookup_origin found with old | ⟨_, _, rfl, _⟩ | ⟨_, _, hev⟩
    · rcases tr.onItsWay_kept (inv.timeout id e old kind live open_) (recorded.bound id e old) with
        kept | done | draining | hev | taken
      · exact kept
      · exact absurd done (inv.not_done open_)
      · exact absurd draining (inv.not_draining open_)
      · have := (tr.cleared_mem (hev ▸ List.mem_singleton_self _)).2 e found
        rw [live] at this
        cases this
      · have := (tr.taken_mem taken).2.2 id rfl open_
        rw [found] at this
        cases this
    · cases live
    · rw [kind] at hev
      exact .inl (tr.registered_timeout (hev ▸ List.mem_singleton_self _))
  interval := by
    intro id e found kind live isOpen
    have open_ := tr.open_before isOpen
    rcases tr.lookup_origin found with old | ⟨_, _, rfl, _⟩ | ⟨_, _, hev⟩
    · obtain ⟨running, looping⟩ := inv.interval id e old kind live open_
      have present : id ∈ tm.timers := AList.lookup_isSome.mp (by rw [old]; rfl)
      rcases tr.interval_kept running looping present (recorded.bound id e old) with
        kept | closed | done | draining | hev
      · exact kept
      · rw [open_] at closed
        cases closed
      · exact absurd done (inv.not_done open_)
      · exact absurd draining (inv.not_draining open_)
      · have := (tr.cleared_mem (hev ▸ List.mem_singleton_self _)).2 e found
        rw [live] at this
        cases this
    · cases live
    · rw [kind] at hev
      obtain ⟨running, looping⟩ := tr.registered_interval (hev ▸ List.mem_singleton_self _)
      exact ⟨running, .inl looping⟩
  single := single_step tr inv.returned inv.single
  returned := by
    intro id mem
    rcases tr.pending_origin mem with old | ⟨c, hc, _, ret, _⟩ | ⟨c, hc, _⟩
    · have ret := inv.returned id old
      have hreg := recorded.logged id false (recorded.timeoutQueued id old)
      rcases tr.afterFunc_origin id with same | ⟨_, _, d, was, _⟩ | ⟨hr, _⟩ | ⟨_, d, was⟩ |
          ⟨_, _, _, _, _, hid, _⟩
      · exact same.trans ret
      · rw [ret] at was; cases was
      · exact hr
      · rw [ret] at was; cases was
      · omega
    · cases hc
      exact ret
    · cases hc
  entry := by
    intro id way isOpen
    have open_ := tr.open_before isOpen
    rcases tr.onItsWay_origin way with old | ⟨fn, t, d, hev⟩
    · rcases inv.entry_kept recorded tr open_ (inv.entry id old open_) with kept | taken
      · exact kept
      · -- its only closure has just been received, so nothing is on the way any more
        exfalso
        obtain ⟨hq, hf, _⟩ := tr.taken_mem taken
        have ret := inv.returned id (by rw [hq]; exact List.mem_cons_self)
        have one := inv.single id
        rw [hq, List.count_cons_self] at one
        rcases way with ⟨d, h⟩ | h | h
        · rw [hf, ret] at h; cases h
        · rw [hf, ret] at h; cases h
        · have := List.count_pos_iff.mpr h
          omega
    · exact tr.registered_entry (hev ▸ List.mem_singleton_self _)
  loopEntry := by
    intro id hl isOpen
    have open_ := tr.open_before isOpen
    rcases tr.loop_started hl with old | ⟨fn, t, d, hev⟩
    · rcases inv.entry_kept recorded tr open_ (inv.loopEntry id old open_) with kept | taken
      · exact kept
      · have mem : .timeout id ∈ tm.pending.buffer := by
          rw [(tr.taken_mem taken).1]
          exact List.mem_cons_self
        exact absurd (recorded.loop id old) (recorded.unique id (recorded.timeoutQueued id mem))
    · exact tr.registered_entry (hev ▸ List.mem_singleton_self _)
  intervalEntry := by
    intro id mem isOpen
    have open_ := tr.open_before isOpen
    have old : id ∈ tm.timers ∧ Registered log id true := by
      rcases tr.pending_origin mem with old | ⟨c, hc, _⟩ | ⟨c, hc, sending, _⟩
      · exact ⟨inv.intervalEntry id old open_, recorded.intervalQueued id old⟩
      · cases hc
      · cases hc
        have hl : tm.loops id ≠ .unset := by rw [sending]; simp
        exact ⟨inv.loopEntry id hl open_, recorded.loop id hl⟩
    rcases inv.entry_kept recorded tr open_ old.1 with kept | taken
    · exact kept
    · have mem : .timeout id ∈ tm.pending.buffer := by
        rw [(tr.taken_mem taken).1]
        exact List.mem_cons_self
      exact absurd old.2 (recorded.unique id (recorded.timeoutQueued id mem))

theorem progress_new : Progress newTimerManager := by
  constructor <;> simp [newTimerManager, Main.isOpen, OnItsWay]

/-- What the runs below rest on, without the log they were proved over. -/
def Sound (tm : TimerManager) : Prop := ∃ log, Recorded tm log ∧ Progress tm

theorem Sound.step (inv : Sound tm) (hs : Timers.step tm a = some (tm', ev)) : Sound tm' := by
  obtain ⟨log, recorded, progress⟩ := inv
  have tr := step_transition hs
  exact ⟨log ++ ev, recorded.step tr, progress.step recorded tr⟩

theorem run_sound {as : List Action} (run : Run as tm log) : Sound tm :=
  exec_state_invariant (fun _ _ => True) (fun _ _ _ _ inv _ hs => inv.step hs)
    ⟨[], inv_new.recorded, progress_new⟩ (allSteps_of_forall (fun _ _ => trivial) _ as) run

/-- The first of the steps towards the start of a live timer, one lemma each. In all of them the
event loop is inside `ProcessPending`; the queue is empty once the firing is to be queued. -/
theorem receive_enabled {c : Closure} {b : Bool} {rest : List Closure}
    (looping : tm.main = .processing b) (isOpen : tm.closed = false)
    (queue : tm.pending.buffer = c :: rest) :
    ∃ tm' ev, step tm .receive = some (tm', ev) := by
  obtain ⟨q, recv, _⟩ := GoChan.recv_of_buffer queue
  exact ⟨_, _, by simp only [step, receive, looping, recv, isOpen]; rfl⟩

theorem Transition.receive_result (tr : Transition tm .receive tm' ev) {c : Closure}
    {rest : List Closure} (queue : tm.pending.buffer = c :: rest) :
    tm'.closed = tm.closed ∧ tm'.pending.buffer = rest ∧ .taken c ∈ ev ∧
      (tm'.main = .processing true ∨ ∃ fn, tm'.main = .calling c fn) := by
  cases tr
  case noArgument call | clearMiss call | clearOther call => cases call
  case skip recv _ | freeTimeout recv _ _ _ =>
    have hq := GoChan.recv_eq_some.mp recv
    rw [queue] at hq
    obtain ⟨rfl, rfl⟩ := List.cons.inj hq
    exact ⟨rfl, rfl, List.mem_cons_self, .inl rfl⟩
  case startTimeout recv _ _ _ | startInterval recv _ _ _ =>
    have hq := GoChan.recv_eq_some.mp recv
    rw [queue] at hq
    obtain ⟨rfl, rfl⟩ := List.cons.inj hq
    exact ⟨rfl, rfl, List.mem_cons_self, .inr ⟨_, rfl⟩⟩

theorem Transition.receive_live (tr : Transition tm .receive tm' ev) {c : Closure}
    {rest : List Closure} {e : TimerEntry} (isOpen : tm.closed = false)
    (queue : tm.pending.buffer = c :: rest) (found : tm.timers.lookup c.id = some e)
    (live : e.canceled = false) :
    .started c.id e.fn ∈ ev := by
  have head : ∀ d q, tm.pending.recv = some (d, q) → d = c := by
    intro d q recv
    have hq := GoChan.recv_eq_some.mp recv
    rw [queue] at hq
    exact (List.cons.inj hq).1.symm
  cases tr
  case noArgument call | clearMiss call | clearOther call => cases call
  case skip recv nothing =>
    obtain rfl := head _ _ recv
    rcases nothing with closed | none | ⟨e', _, found', canceled⟩
    · rw [isOpen] at closed
      cases closed
    · rw [found] at none
      cases none
    · rw [found] at found'
      cases found'
      rw [live] at canceled
      cases canceled
  case startTimeout recv _ found' _ | startInterval recv _ found' _ =>
    obtain rfl := head _ _ recv
    obtain rfl := Option.some.inj (found.symm.trans found')
    simp [Closure.id]
  case freeTimeout recv _ found' canceled =>
    obtain rfl := head _ _ recv
    obtain rfl := Option.some.inj (found.symm.trans found')
    rw [live] at canceled
    cases canceled

theorem canStart_of_head {id : Int} {c : Closure} {b : Bool} {rest : List Closure}
    (looping : tm.main = .processing b) (isOpen : tm.closed = false)
    (queue : tm.pending.buffer = c :: rest) (hc : c.id = id) (live : Live tm id) :
    CanStart tm id := by
  obtain ⟨tm', ev, hs⟩ := receive_enabled looping isOpen queue
  obtain ⟨e, found, live⟩ := live
  have started := (step_transition hs).receive_live isOpen queue (hc ▸ found) live
  exact CanEmit.of_emit (a := .receive) rfl hs ⟨_, started, e.fn, by rw [hc]⟩

theorem canStart_of_sendingTimeout {id : Int} {b : Bool} (looping : tm.main = .processing b)
    (isOpen : tm.closed = false) (queue : tm.pending.buffer = [])
    (sending : tm.afterFuncs id = .sending) (live : Live tm id) : CanStart tm id := by
  obtain ⟨q, send, hq⟩ := tm.pending.send_of_room (.timeout id) (by simp [queue])
  refine CanEmit.of_step (a := .sendTimeout id) rfl
    (by simp only [step, sendTimeout, sending, send]; rfl) ?_
  exact canStart_of_head looping isOpen (hq.trans (by rw [queue]; rfl)) rfl live

theorem canStart_of_armed {id : Int} {b : Bool} {d : Nat} (looping : tm.main = .processing b)
    (isOpen : tm.closed = false) (queue : tm.pending.buffer = [])
    (armed : tm.afterFuncs id = .armed d) (live : Live tm id) : CanStart tm id := by
  refine CanEmit.of_step (a := .advance d) rfl rfl ?_
  refine CanEmit.of_step (a := .expire id) rfl
    (by simp only [step, expire, armed, if_pos (Nat.le_add_left d tm.now)]; rfl) ?_
  exact canStart_of_sendingTimeout looping isOpen queue (Function.update_self _ _ _) live

theorem canStart_of_sendingInterval {id : Int} {b : Bool} (looping : tm.main = .processing b)
    (isOpen : tm.closed = false) (queue : tm.pending.buffer = [])
    (sending : tm.loops id = .sending) (live : Live tm id) : CanStart tm id := by
  obtain ⟨q, send, hq⟩ := tm.pending.send_of_room (.interval id) (by simp [queue])
  refine CanEmit.of_step (a := .sendInterval id) rfl
    (by simp only [step, sendInterval, sending, send, if_true]; rfl) ?_
  exact canStart_of_head looping isOpen (hq.trans (by rw [queue]; rfl)) rfl live

theorem canStart_of_looking {id : Int} {b : Bool} (looping : tm.main = .processing b)
    (isOpen : tm.closed = false) (queue : tm.pending.buffer = [])
    (looking : tm.loops id = .looking) (live : Live tm id) : CanStart tm id := by
  refine CanEmit.of_step (a := .checkExists id) rfl
    (by simp only [step, checkExists, looking, live.mem, if_true]; rfl) ?_
  exact canStart_of_sendingInterval looping isOpen queue (Function.update_self _ _ _) live

theorem canStart_of_ticked {id : Int} {b : Bool} (looping : tm.main = .processing b)
    (isOpen : tm.closed = false) (queue : tm.pending.buffer = [])
    (ticked : tm.loops id = .ticked) (live : Live tm id) : CanStart tm id := by
  refine CanEmit.of_step (a := .checkClosed id) rfl
    (by
      simp only [step, checkClosed, ticked, if_true]
      rw [if_neg (by simp [isOpen])]) ?_
  exact canStart_of_looking looping isOpen queue (Function.update_self _ _ _) live

theorem canStart_of_tick {id : Int} {b : Bool} (looping : tm.main = .processing b)
    (isOpen : tm.closed = false) (queue : tm.pending.buffer = [])
    (selecting : tm.loops id = .selecting) (ready : (tm.tickers id).tick = true)
    (live : Live tm id) : CanStart tm id := by
  refine CanEmit.of_step (a := .receiveTick id) rfl
    (by simp only [step, receiveTick, selecting, ready, and_self, if_true]; rfl) ?_
  exact canStart_of_ticked looping isOpen queue (Function.update_self _ _ _) live

theorem canStart_of_running {id : Int} {b : Bool} (looping : tm.main = .processing b)
    (isOpen : tm.closed = false) (queue : tm.pending.buffer = [])
    (selecting : tm.loops id = .selecting) (running : (tm.tickers id).running = true)
    (live : Live tm id) : CanStart tm id := by
  refine CanEmit.of_step (a := .advance (tm.tickers id).next) rfl rfl ?_
  refine CanEmit.of_step (a := .tick id) rfl
    (by
      simp only [step, tick, running, true_and]
      rw [if_pos (Nat.le_add_left (tm.tickers id).next tm.now)]) ?_
  exact canStart_of_tick looping isOpen queue selecting (by simp) live

theorem canStart_of_empty (progress : Progress tm) {id : Int} {b : Bool}
    (looping : tm.main = .processing b) (isOpen : tm.closed = false)
    (queue : tm.pending.buffer = []) (live : Live tm id) : CanStart tm id := by
  obtain ⟨e, found, uncanceled⟩ := live
  have live : Live tm id := ⟨e, found, uncanceled⟩
  cases kind : e.interval with
  | false =>
    rcases progress.timeout id e found kind uncanceled isOpen with ⟨d, armed⟩ | sending | queued
    · exact canStart_of_armed looping isOpen queue armed live
    · exact canStart_of_sendingTimeout looping isOpen queue sending live
    · rw [queue] at queued
      cases queued
  | true =>
    obtain ⟨running, hl⟩ := progress.interval id e found kind uncanceled isOpen
    cases loop : tm.loops id with
    | selecting => exact canStart_of_running looping isOpen queue loop running live
    | ticked => exact canStart_of_ticked looping isOpen queue loop live
    | looking => exact canStart_of_looking looping isOpen queue loop live
    | sending => exact canStart_of_sendingInterval looping isOpen queue loop live
    | unset | returned => simp [loop, IntervalLoop.holdsTick] at hl

/-- A step that is neither a clear nor a start of the timer leaves it live. -/
theorem live_kept (recorded : Recorded tm log) (tr : Transition tm a tm' ev) {id : Int}
    (notDraining : tm.main ≠ .draining) (notCleared : ev ≠ [.cleared id])
    (notStarted : ∀ fn, .started id fn ∉ ev) (live : Live tm id) : Live tm' id := by
  obtain ⟨e, found, uncanceled⟩ := live
  rcases tr.lookup_kept found (recorded.bound id e found) with ⟨e', kept, _, _, same | ⟨_, hev⟩⟩ |
      ⟨_, _, _, hev⟩ | ⟨_, _, canceled, _⟩ | ⟨draining, _⟩
  · exact ⟨e', kept, same.trans uncanceled⟩
  · exact absurd hev notCleared
  · exact absurd (by simp [hev]) (notStarted e.fn)
  · rw [uncanceled] at canceled
    cases canceled
  · exact absurd draining notDraining

theorem callReturn_enabled {c : Closure} {fn : Nat} (calling : tm.main = .calling c fn) :
    ∃ ev, step tm .callReturn = some ({ tm with main := .processing true }, ev) := by
  cases c <;> exact ⟨_, by simp only [step, callReturn, calling]; rfl⟩

/-- The queue is received in order until the timer's closure comes up or the queue
is empty; by induction on its length. -/
theorem canStart_of_processing (n : Nat) {id : Int} (sound : Sound tm) {b : Bool}
    (looping : tm.main = .processing b) (isOpen : tm.closed = false)
    (length : tm.pending.buffer.length = n) (live : Live tm id) : CanStart tm id := by
  induction n generalizing tm b with
  | zero =>
    obtain ⟨_, _, progress⟩ := sound
    exact canStart_of_empty progress looping isOpen (List.length_eq_zero_iff.mp length) live
  | succ n ih =>
    obtain ⟨c, rest, queue⟩ := List.exists_cons_of_length_eq_add_one length
    obtain ⟨tm', ev, hs⟩ := receive_enabled looping isOpen queue
    have tr := step_transition hs
    obtain ⟨hclosed, hqueue, taken, hmain⟩ := tr.receive_result queue
    by_cases started : ∃ fn, .started id fn ∈ ev
    · obtain ⟨fn, mem⟩ := started
      exact CanEmit.of_emit (a := .receive) rfl hs ⟨_, mem, fn, rfl⟩
    · obtain ⟨log, recorded, progress⟩ := sound
      have live' : Live tm' id :=
        live_kept recorded tr (by rw [looping]; simp) (by rintro rfl; simp at taken)
          (fun fn mem => started ⟨fn, mem⟩) live
      have sound' : Sound tm' := Sound.step ⟨log, recorded, progress⟩ hs
      have short : tm'.pending.buffer.length = n := by
        rw [hqueue]
        simpa [queue] using length
      refine CanEmit.of_step (a := .receive) rfl hs ?_
      rcases hmain with hmain | ⟨fn, hmain⟩
      · exact ih sound' hmain (hclosed.trans isOpen) short live'
      · obtain ⟨ret, hr⟩ := callReturn_enabled hmain
        exact CanEmit.of_step (a := .callReturn) rfl hr
          (ih (sound'.step hr) rfl (hclosed.trans isOpen) short live')

theorem canStart_of_live (sound : Sound tm) (isOpen : tm.closed = false) {id : Int}
    (live : Live tm id) : CanStart tm id := by
  have main : tm.main.isOpen = true := by
    obtain ⟨_, _, progress⟩ := sound
    exact progress.main.mpr isOpen
  cases at_ : tm.main with
  | idle =>
    have hs : step tm .processBegin =
        some ({ tm with main := .processing false }, [.processBegan]) := by
      simp only [step, processBegin, at_]
      rw [if_neg (by simp [isOpen])]
    exact CanEmit.of_step (a := .processBegin) rfl hs
      (canStart_of_processing _ (sound.step hs) rfl isOpen rfl live)
  | processing b => exact canStart_of_processing _ sound at_ isOpen rfl live
  | calling c fn =>
    obtain ⟨ev, hs⟩ := callReturn_enabled at_
    exact CanEmit.of_step (a := .callReturn) rfl hs
      (canStart_of_processing _ (sound.step hs) rfl isOpen rfl live)
  | closing | waiting | draining | closed => simp [at_, Main.isOpen] at main

/-- In every sound state of an open manager the timers that can still start
without further registrations are exactly those with a live entry. -/
theorem canStart_iff_live (sound : Sound tm) (isOpen : tm.closed = false) {id : Int} :
    CanStart tm id ↔ Live tm id :=
  ⟨live_of_canStart, canStart_of_live sound isOpen⟩

end Timers
