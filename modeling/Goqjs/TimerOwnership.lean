import Goqjs.TimerSafety

/-!
# Who frees a timer's callback

Registering a timer duplicates its callback; the map entry owns the duplicate,
from it the running closure of a timeout takes it over, and what is no longer
held has been freed. Every step conserves these counts.
-/

namespace Timers

open Runs

variable {tm tm' : TimerManager} {a : Action} {ev log : List Event}

def Event.registers (id : Int) : Event → Bool
  | .registered i _ _ _ _ => i == id
  | _ => false

def Event.frees (id : Int) : Event → Bool
  | .freed i _ => i == id
  | _ => false

def registrations (log : List Event) (id : Int) : Nat := log.countP (Event.registers id)

def frees (log : List Event) (id : Int) : Nat := log.countP (Event.frees id)

/-- The timeout whose closure has removed its entry and is calling the callback. -/
def Main.heldTimeout : Main → Option Int
  | .calling (.timeout id) _ => some id
  | _ => none

def held (tm : TimerManager) (id : Int) : Nat :=
  (if id ∈ tm.timers then 1 else 0) + if tm.main.heldTimeout = some id then 1 else 0

theorem held_congr {id : Int} (map : id ∈ tm.timers ↔ id ∈ tm'.timers)
    (main : tm.main = tm'.main) : held tm id = held tm' id := by
  simp only [held, map, main]

theorem cancel_mem {c : Int} {e : TimerEntry} (found : tm.timers.lookup c = some e) (id : Int) :
    id ∈ tm.timers ↔ id ∈ (cancel tm c e).timers := by
  have present : c ∈ tm.timers := AList.lookup_isSome.mp (by rw [found]; rfl)
  simp only [cancel, AList.mem_insert]
  constructor
  · exact .inr
  · rintro (rfl | h)
    · exact present
    · exact h

@[simp] theorem registrations_append (log ev : List Event) (id : Int) :
    registrations (log ++ ev) id = registrations log id + registrations ev id :=
  List.countP_append

@[simp] theorem frees_append (log ev : List Event) (id : Int) :
    frees (log ++ ev) id = frees log id + frees ev id :=
  List.countP_append

theorem frees_pos_iff {id : Int} : 0 < frees log id ↔ ∃ fn, .freed id fn ∈ log := by
  rw [frees, List.countP_pos_iff]
  constructor
  · rintro ⟨e, mem, h⟩
    cases e <;> simp [Event.frees] at h
    subst h
    exact ⟨_, mem⟩
  · rintro ⟨fn, mem⟩
    exact ⟨_, mem, by simp [Event.frees]⟩

theorem registrations_pos_iff {id : Int} :
    0 < registrations log id ↔ ∃ iv, Registered log id iv := by
  rw [registrations, List.countP_pos_iff]
  constructor
  · rintro ⟨e, mem, h⟩
    cases e <;> simp [Event.registers] at h
    subst h
    exact ⟨_, _, _, _, mem⟩
  · rintro ⟨iv, fn, t, d, mem⟩
    exact ⟨_, mem, by simp [Event.registers]⟩

/-- `Close` frees every entry once: the keys of the map are distinct. -/
theorem frees_entries (tm : TimerManager) (id : Int) :
    frees (tm.timers.entries.map (fun e => Event.freed e.1 e.2.fn) ++ [.closeReturned]) id =
      if id ∈ tm.timers then 1 else 0 := by
  have count : frees (tm.timers.entries.map (fun e => Event.freed e.1 e.2.fn)) id =
      tm.timers.keys.count id := by
    rw [frees, List.countP_map, AList.keys, List.keys, List.count, List.countP_map]
    rfl
  have keys : tm.timers.keys.count id = if id ∈ tm.timers then 1 else 0 := by
    rw [tm.timers.keys_nodup.count]
    simp only [AList.mem_keys]
  rw [frees_append, count, keys]
  rfl

/-- A step moves callbacks between the places that hold them and the log. -/
theorem Transition.conserves (tr : Transition tm a tm' ev) (fresh : tm.counter + 1 ∉ tm.timers)
    (id : Int) : registrations ev id + held tm id = held tm' id + frees ev id := by
  cases tr
  case setTimeout | setInterval =>
    by_cases hid : id = tm.counter + 1
    · subst hid
      simp [registrations, held, frees, Event.registers, Event.frees, fresh]
    · simp [registrations, held, frees, Event.registers, Event.frees, hid, Ne.symm hid]
  case clearOther c e _ found _ | clearTimeout c e _ found _ | clearInterval c e _ found _ =>
    have none : registrations [.cleared c] id = 0 ∧ frees [.cleared c] id = 0 := by
      simp [registrations, frees, Event.registers, Event.frees]
    rw [none.1, none.2, Nat.zero_add, Nat.add_zero]
    exact held_congr (cancel_mem found id) rfl
  case startTimeout c e q b looping _ _ found _ | freeTimeout c e q b looping _ _ found _ =>
    have present : c ∈ tm.timers := AList.lookup_isSome.mp (by rw [found]; rfl)
    by_cases hid : id = c
    · subst hid
      simp [registrations, held, frees, Event.registers, Event.frees, looping, Main.heldTimeout,
        present]
    · simp [registrations, held, frees, Event.registers, Event.frees, looping, Main.heldTimeout,
        hid, Ne.symm hid]
  case startInterval looping _ _ _ _ | skip looping _ _ | processEnd looping _ =>
    simp [registrations, held, frees, Event.registers, Event.frees, looping, Main.heldTimeout]
  case processBegin idle _ =>
    rcases idle with idle | idle <;>
      simp [registrations, held, frees, Event.registers, Event.frees, idle, Main.heldTimeout]
  case timeoutReturn c fn calling =>
    simp [registrations, held, frees, Event.registers, Event.frees, calling, Main.heldTimeout]
  case intervalReturn at_ | closeBegin at_ | closeDone at_ | closeWait at_ _ =>
    simp [registrations, held, frees, Event.registers, Event.frees, at_, Main.heldTimeout]
  case freeAll draining _ =>
    rw [frees_entries]
    simp [registrations, held, Event.registers, draining, Main.heldTimeout]
  all_goals simp [registrations, held, frees, Event.registers, Event.frees]

/-- A call of the callback of `id` has begun and not ended. -/
def Running (log : List Event) (id : Int) : Prop :=
  ∃ pre fn post, log = pre ++ .started id fn :: post ∧ .ended id ∉ post

/-- Where every duplicated callback is. -/
structure Owned (tm : TimerManager) (log : List Event) : Prop where
  balance : ∀ id, registrations log id = held tm id + frees log id
  single : ∀ id, registrations log id ≤ 1
  calling : ∀ c fn, tm.main = .calling c fn → ∃ iv t d, .registered c.id fn iv t d ∈ log
  freed : ∀ id fn, .freed id fn ∈ log → ∃ iv t d, .registered id fn iv t d ∈ log
  running : ∀ id, Running log id → ∃ c fn, tm.main = .calling c fn ∧ c.id = id

theorem Running.append_iff {id : Int} (started : ∀ fn, .started id fn ∉ ev) :
    Running (log ++ ev) id ↔ Running log id ∧ .ended id ∉ ev := by
  constructor
  · rintro ⟨pre, fn, post, h, open_⟩
    rcases split_append h with ⟨mid, hlog, rfl⟩ | ⟨mid, _, hev⟩
    · exact ⟨⟨pre, fn, mid, hlog, fun h => open_ (List.mem_append_left _ h)⟩,
        fun h => open_ (List.mem_append_right _ h)⟩
    · exact absurd (by simp [hev]) (started fn)
  · rintro ⟨⟨pre, fn, post, rfl, open_⟩, fresh⟩
    exact ⟨pre, fn, post ++ ev, by simp, by simp [open_, fresh]⟩

theorem Transition.registrations_le (tr : Transition tm a tm' ev) (id : Int) :
    registrations ev id = 0 ∨ id = tm.counter + 1 ∧ registrations ev id = 1 := by
  by_cases h : 0 < registrations ev id
  · obtain ⟨iv, fn, t, d, mem⟩ := registrations_pos_iff.mp h
    obtain ⟨hid, _, _, hev⟩ := tr.registered_mem mem
    exact .inr ⟨hid, by simp [hev, registrations, Event.registers]⟩
  · exact .inl (Nat.eq_zero_of_not_pos h)

/-- `Close` leaves no entry, and without registrations none comes after it. -/
theorem Transition.empty_step (tr : Transition tm a tm' ev)
    (inv : tm.main = .closed → tm.timers = ∅) (inTime : RegistersInTime tm a) :
    tm'.main = .closed → tm'.timers = ∅ := by
  cases tr
  case freeAll => exact fun _ => rfl
  case setTimeout js | setInterval js => exact fun closed => nomatch inTime closed rfl
  case clearOther js found _ | clearTimeout js found _ | clearInterval js found _ =>
    intro closed
    rw [inv closed, AList.lookup_empty] at found
    cases found
  all_goals first | exact inv | exact fun h => nomatch h

/-- A call goes on until the step that returns from it. -/
theorem Transition.calling_kept (tr : Transition tm a tm' ev) {c : Closure} {fn : Nat}
    (h : tm.main = .calling c fn) : tm'.main = .calling c fn ∨ .ended c.id ∈ ev := by
  cases tr
  case timeoutReturn calling | intervalReturn calling =>
    obtain ⟨rfl, rfl⟩ := Main.calling.inj (calling.symm.trans h)
    exact .inr (by simp [Closure.id])
  case processBegin idle _ => rcases idle with idle | idle <;> rw [h] at idle <;> cases idle
  case skip at_ _ _ | startTimeout at_ _ _ _ _ | freeTimeout at_ _ _ _ _ |
      startInterval at_ _ _ _ _ | processEnd at_ _ | closeBegin at_ | closeDone at_ |
      closeWait at_ _ | freeAll at_ _ =>
    rw [h] at at_
    cases at_
  all_goals exact .inl h

theorem Transition.calling_origin (tr : Transition tm a tm' ev) {c : Closure} {fn : Nat}
    (h : tm'.main = .calling c fn) : tm.main = .calling c fn ∨ .started c.id fn ∈ ev := by
  cases tr
  case startTimeout | startInterval =>
    obtain ⟨rfl, rfl⟩ := Main.calling.inj h
    exact .inr (by simp [Closure.id])
  all_goals first | exact .inl h | exact nomatch h

theorem Owned.step (inv : Owned tm log) (recorded : Recorded tm log)
    (tr : Transition tm a tm' ev) : Owned tm' (log ++ ev) where
  balance := by
    intro id
    have fresh : tm.counter + 1 ∉ tm.timers := by
      intro present
      obtain ⟨e, found⟩ := Option.isSome_iff_exists.mp (AList.lookup_isSome.mpr present)
      have := recorded.bound _ e found
      omega
    have moved := tr.conserves fresh id
    have old := inv.balance id
    rw [registrations_append, frees_append]
    omega
  single := by
    intro id
    rw [registrations_append]
    have old := inv.single id
    rcases tr.registrations_le id with none | ⟨hid, one⟩
    · omega
    · have unseen : registrations log id = 0 := by
        by_contra h
        obtain ⟨iv, registered⟩ := registrations_pos_iff.mp (Nat.pos_of_ne_zero h)
        have := recorded.logged id iv registered
        omega
      omega
  calling := by
    intro c fn h
    rcases tr.calling_origin h with old | started
    · obtain ⟨iv, t, d, registered⟩ := inv.calling c fn old
      exact ⟨iv, t, d, List.mem_append_left _ registered⟩
    · obtain ⟨_, _, _, e, _, _, _, _, _, found, _, rfl, _⟩ := tr.started_mem started
      obtain ⟨t, d, registered⟩ := recorded.entry c.id e found
      exact ⟨_, t, d, List.mem_append_left _ registered⟩
  freed := by
    intro id fn h
    have source : ∃ iv t d, .registered id fn iv t d ∈ log := by
      rcases List.mem_append.mp h with old | new
      · exact inv.freed id fn old
      · rcases tr.freed_mem new with ⟨calling, _⟩ | ⟨e, _, found, rfl, _⟩ | ⟨e, found, rfl, _⟩
        · exact inv.calling _ fn calling
        · exact ⟨_, recorded.entry id e found⟩
        · exact ⟨_, recorded.entry id e found⟩
    obtain ⟨iv, t, d, registered⟩ := source
    exact ⟨iv, t, d, List.mem_append_left _ registered⟩
  running := by
    intro id h
    by_cases starts : ∃ i fn, Event.started i fn ∈ ev
    · obtain ⟨i, fn, started⟩ := starts
      obtain ⟨c, _, _, _, _, looping, _, hc, _, _, _, _, hev, rfl⟩ := tr.started_mem started
      refine ⟨c, fn, rfl, ?_⟩
      obtain ⟨pre, f, post, hlog, open_⟩ := h
      rcases split_append hlog with ⟨mid, before, rfl⟩ | ⟨mid, _, hev'⟩
      · -- no other call can be in progress inside the receive loop
        obtain ⟨d, g, calling, _⟩ :=
          inv.running id ⟨pre, f, mid, before, fun h => open_ (List.mem_append_left _ h)⟩
        rw [looping] at calling
        cases calling
      · have mem : Event.started id f ∈ ev := by simp [hev']
        rw [hev] at mem
        simp at mem
        exact hc.trans mem.1.symm
    · have none : ∀ fn, Event.started id fn ∉ ev := fun fn mem => starts ⟨id, fn, mem⟩
      obtain ⟨old, notEnded⟩ := (Running.append_iff none).mp h
      obtain ⟨c, fn, calling, rfl⟩ := inv.running id old
      rcases tr.calling_kept calling with kept | ended
      · exact ⟨c, fn, kept, rfl⟩
      · exact absurd ended notEnded

theorem owned_new : Owned newTimerManager [] := by
  constructor <;> simp [newTimerManager, registrations, held, frees, Main.heldTimeout, Running]

theorem Owned.frees_le (inv : Owned tm log) (id : Int) : frees log id ≤ 1 := by
  have := inv.balance id
  have := inv.single id
  omega

theorem Owned.not_freed (inv : Owned tm log) {id : Int} (present : id ∈ tm.timers) :
    frees log id = 0 := by
  have := inv.balance id
  have := inv.single id
  have : 1 ≤ held tm id := by simp [held, present]
  omega

/-- A callback is started only before it is freed, and freed once, outside its calls. -/
def UseAllowed (pre : List Event) (e : Event) : Prop :=
  (∀ id fn, e = .started id fn → frees pre id = 0) ∧
  (∀ id fn, e = .freed id fn → frees pre id = 0 ∧ ¬ Running pre id)

theorem Owned.start_before_free (inv : Owned tm log) (tr : Transition tm a tm' ev) {id : Int}
    {fn : Nat} {mid post : List Event} (hev : ev = mid ++ .started id fn :: post) :
    frees (log ++ mid) id = 0 := by
  have started : Event.started id fn ∈ ev := by simp [hev]
  obtain ⟨c, _, _, e, _, _, _, _, _, found, _, _, hev', _⟩ := tr.started_mem started
  have unfreed := inv.not_freed (AList.lookup_isSome.mp (by rw [found]; rfl))
  have quiet : frees ev id = 0 := by simp [hev', frees, Event.frees]
  rw [hev, frees_append] at quiet
  rw [frees_append]
  omega

theorem Owned.free_outside_call (inv : Owned tm log) (tr : Transition tm a tm' ev) {id : Int}
    {fn : Nat} {mid post : List Event} (hev : ev = mid ++ .freed id fn :: post) :
    ¬ Running (log ++ mid) id := by
  intro running
  have freed : Event.freed id fn ∈ ev := by simp [hev]
  have noStart : ∀ f, Event.started id f ∉ ev := by
    intro f started
    obtain ⟨_, _, _, _, _, _, _, _, _, _, _, _, hev', _⟩ := tr.started_mem started
    simp [hev'] at freed
  obtain ⟨old, notEnded⟩ := (Running.append_iff
    (fun f h => noStart f (by rw [hev]; exact List.mem_append_left _ h))).mp running
  obtain ⟨c, g, calling, hc⟩ := inv.running id old
  rcases tr.freed_mem freed with ⟨_, hev'⟩ | ⟨_, _, _, _, at_, _⟩ | ⟨_, _, _, at_, _⟩
  · -- the call of a timeout ends in the step that frees it, before the free
    rw [hev'] at hev
    cases mid with
    | nil => cases hev
    | cons x mid =>
      obtain ⟨rfl, _⟩ := List.cons.inj hev
      simp at notEnded
  · rw [calling] at at_
    cases at_
  · rw [calling] at at_
    cases at_

theorem Owned.uses (inv : Owned tm log) (recorded : Recorded tm log)
    (tr : Transition tm a tm' ev) (old : Guarded UseAllowed log) :
    Guarded UseAllowed (log ++ ev) := by
  apply guarded_append old
  rintro mid e post hev
  refine ⟨?_, ?_⟩
  · rintro id fn rfl
    exact inv.start_before_free tr hev
  · rintro id fn rfl
    refine ⟨?_, inv.free_outside_call tr hev⟩
    have le := (inv.step recorded tr).frees_le id
    have one : frees [Event.freed id fn] id = 1 := by simp [frees, Event.frees]
    have split : log ++ ev = (log ++ mid) ++ ([.freed id fn] ++ post) := by simp [hev]
    rw [split, frees_append, frees_append [.freed id fn], one] at le
    omega

theorem run_owned {as : List Action} (run : Run as tm log) :
    (Recorded tm log ∧ Owned tm log) ∧ Guarded UseAllowed log := by
  refine exec_invariant_all
    (I := fun tm log => (Recorded tm log ∧ Owned tm log) ∧ Guarded UseAllowed log)
    ?_ ⟨⟨inv_new.recorded, owned_new⟩, guarded_nil _⟩ run
  rintro s pre a t ev ⟨⟨recorded, owned⟩, uses⟩ hs
  have tr := step_transition hs
  exact ⟨⟨recorded.step tr, owned.step recorded tr⟩, owned.uses recorded tr uses⟩

/-- A registration is the only one of its id. -/
theorem Owned.registered_eq (inv : Owned tm log) {id : Int} {fn fn' t t' d d' : Nat}
    {iv iv' : Bool} (h : .registered id fn iv t d ∈ log) (h' : .registered id fn' iv' t' d' ∈ log) :
    fn = fn' ∧ iv = iv' ∧ t = t' ∧ d = d' := by
  obtain ⟨pre, post, rfl⟩ := List.append_of_mem h
  have single := inv.single id
  rw [registrations, List.countP_append, List.countP_cons] at single
  simp only [Event.registers, beq_self_eq_true, if_true] at single
  have unique : ∀ l : List Event, l.countP (Event.registers id) = 0 →
      Event.registered id fn' iv' t' d' ∉ l := by
    intro l zero mem
    have := List.countP_eq_zero.mp zero _ mem
    simp [Event.registers] at this
  rcases List.mem_append.mp h' with h' | h'
  · exact absurd h' (unique pre (by omega))
  · rcases List.mem_cons.mp h' with h' | h'
    · cases h'
      exact ⟨rfl, rfl, rfl, rfl⟩
    · exact absurd h' (unique post (by omega))

/-- In every run no callback is called after its free or freed during its call or freed twice; and
when `Close` has returned, and no timer has been registered after it, every duplicated callback
is freed. -/
theorem callback_ownership {as : List Action} (run : Run as tm log) :
    Guarded UseAllowed log ∧
    (AllSteps step RegistersInTime newTimerManager as → tm.main = .closed →
      ∀ id fn iv t d, .registered id fn iv t d ∈ log → frees log id = 1 ∧ .freed id fn ∈ log) := by
  obtain ⟨⟨_, owned⟩, uses⟩ := run_owned run
  refine ⟨uses, fun steps closed id fn iv t d registered => ?_⟩
  have empty : tm.main = .closed → tm.timers = ∅ :=
    exec_state_invariant RegistersInTime (I := fun tm => tm.main = .closed → tm.timers = ∅)
      (fun s a t ev inv inTime hs => (step_transition hs).empty_step inv inTime)
      (fun _ => rfl) steps run
  have released : held tm id = 0 := by
    simp [held, empty closed, closed, Main.heldTimeout]
  have seen : 0 < registrations log id := registrations_pos_iff.mpr ⟨iv, fn, t, d, registered⟩
  have balance := owned.balance id
  have single := owned.single id
  have one : frees log id = 1 := by omega
  obtain ⟨f, freed⟩ := frees_pos_iff.mp (Nat.lt_of_lt_of_eq Nat.zero_lt_one one.symm)
  obtain ⟨iv', t', d', registered'⟩ := owned.freed id f freed
  obtain ⟨rfl, _⟩ := owned.registered_eq registered registered'
  exact ⟨one, freed⟩

/-- A timeout whose callback clears it and an interval with a queued firing at `Close`. -/
theorem callback_ownership_run : ∃ tm log,
    Run [.setTimeout (some 7) (some 1), .setInterval (some 8) none, .advance 1, .expire 1,
      .sendTimeout 1, .processBegin, .receive, .clearTimeout (some 1), .tick 2, .receiveTick 2,
      .checkClosed 2, .callReturn, .processEnd, .checkExists 2, .sendInterval 2, .closeBegin,
      .closeDone, .quitInterval 2, .closeWait, .drain, .freeAll] tm log ∧
      tm.main = .closed ∧ Guarded UseAllowed log ∧
      (frees log 1 = 1 ∧ .freed 1 7 ∈ log) ∧ (frees log 2 = 1 ∧ .freed 2 8 ∈ log) := by
  obtain ⟨tm, log, run, closed, first, second⟩ : ∃ tm log,
      Run [.setTimeout (some 7) (some 1), .setInterval (some 8) none, .advance 1, .expire 1,
        .sendTimeout 1, .processBegin, .receive, .clearTimeout (some 1), .tick 2, .receiveTick 2,
        .checkClosed 2, .callReturn, .processEnd, .checkExists 2, .sendInterval 2, .closeBegin,
        .closeDone, .quitInterval 2, .closeWait, .drain, .freeAll] tm log ∧
      tm.main = .closed ∧ .registered 1 7 false 0 1 ∈ log ∧ .registered 2 8 true 0 1 ∈ log :=
    ⟨_, _, rfl, rfl, by decide, by decide⟩
  obtain ⟨uses, freed⟩ := callback_ownership run
  have inTime := freed (allSteps_cons (fun closed => nomatch closed) rfl (allSteps_cons
    (fun closed => nomatch closed) rfl (registersInTime_of_mem (by decide)))) closed
  exact ⟨tm, log, run, closed, uses, inTime 1 7 _ _ _ first, inTime 2 8 _ _ _ second⟩

end Timers
