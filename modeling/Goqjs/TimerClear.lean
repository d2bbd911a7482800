import Goqjs.TimerPending

/-!
# What a clear call stops and what it leaves

A closure that `ProcessPending` receives starts its callback unless its own
timer was cleared or the manager closed; a clear call touches one entry. With
the history of every start this is the safety of the timer functions.
-/

namespace Timers

open Runs

variable {tm tm' : TimerManager} {a : Action} {ev log : List Event}

/-- Why an entry is cancelled and why the manager is closed. -/
structure Explained (tm : TimerManager) (log : List Event) : Prop where
  closed : tm.closed = true → .closeBegan ∈ log
  canceled : ∀ id e, tm.timers.lookup id = some e → e.canceled = true → Cleared log id

theorem Transition.closed_origin (tr : Transition tm a tm' ev) (h : tm'.closed = true) :
    tm.closed = true ∨ .closeBegan ∈ ev := by
  cases tr
  case closeBegin => exact .inr List.mem_cons_self
  all_goals exact .inl h

theorem Cleared.append {id : Int} (h : Cleared log id) (ev : List Event) :
    Cleared (log ++ ev) id := by
  obtain ⟨fn, iv, t, d, before⟩ := h
  exact ⟨fn, iv, t, d, before.append ev⟩

theorem Explained.step (inv : Explained tm log) (recorded : Recorded tm log)
    (tr : Transition tm a tm' ev) : Explained tm' (log ++ ev) where
  closed := by
    intro h
    rcases tr.closed_origin h with old | new
    · exact List.mem_append_left _ (inv.closed old)
    · exact List.mem_append_right _ new
  canceled := by
    intro id e found canceled
    rcases tr.lookup_origin found with old | ⟨e', old, _, rfl⟩ | ⟨_, new, _⟩
    · exact (inv.canceled id e old canceled).append ev
    · obtain ⟨t, d, registered⟩ := recorded.entry id e' old
      exact ⟨_, _, t, d, before_append_singleton.mpr registered⟩
    · rw [canceled] at new
      cases new

/-- A receive emits the closure first, and with it the start if nothing forbids it. -/
theorem Transition.taken_result (tr : Transition tm a tm' ev) {c : Closure} (h : .taken c ∈ ev) :
    (∃ fn, ev = [.taken c, .started c.id fn]) ∨
    (∃ post, ev = .taken c :: post ∧ (∀ d, .taken d ∉ post) ∧
      (tm.closed = true ∨ c.id ∉ tm.timers ∨
        ∃ e, tm.timers.lookup c.id = some e ∧ e.canceled = true)) := by
  cases tr <;> simp at h
  case skip c' _ _ _ _ nothing =>
    subst h
    refine .inr ⟨[], rfl, by simp, ?_⟩
    rcases nothing with closed | none | ⟨e, _, found, canceled⟩
    · exact .inl closed
    · exact .inr (.inl (AList.lookup_eq_none.mp none))
    · exact .inr (.inr ⟨e, found, canceled⟩)
  case startTimeout | startInterval =>
    subst h
    exact .inl ⟨_, rfl⟩
  case freeTimeout found canceled =>
    subst h
    exact .inr ⟨_, rfl, by simp, .inr (.inr ⟨_, found, canceled⟩)⟩

/-- Every received closure is followed by the start of its callback, unless its
timer was cleared or `Close` had begun. -/
def ReceivedStart (log : List Event) : Prop :=
  ∀ pre c post, log = pre ++ .taken c :: post → ¬ Cleared pre c.id → .closeBegan ∉ pre →
    ∃ fn rest, post = .started c.id fn :: rest

theorem Transition.taken_starts (tr : Transition tm a tm' ev) (explained : Explained tm log)
    (progress : Progress tm) {c : Closure} {mid post : List Event}
    (hev : ev = mid ++ .taken c :: post) (uncleared : ¬ Cleared log c.id)
    (unclosed : .closeBegan ∉ log) : ∃ fn rest, post = .started c.id fn :: rest := by
  have taken : Event.taken c ∈ ev := by simp [hev]
  have isOpen : tm.closed = false := by
    cases closed : tm.closed with
    | false => rfl
    | true => exact absurd (explained.closed closed) unclosed
  rcases tr.taken_result taken with ⟨fn, hev'⟩ | ⟨post', hev', fresh, reason⟩
  · rw [hev'] at hev
    cases mid with
    | nil =>
      obtain ⟨_, rfl⟩ := List.cons.inj hev
      exact ⟨fn, [], rfl⟩
    | cons x mid =>
      obtain ⟨_, h⟩ := List.cons.inj hev
      have : Event.taken c ∈ [Event.started c.id fn] := by simp [h]
      simp at this
  · exfalso
    rcases reason with closed | absent | ⟨e, found, canceled⟩
    · rw [isOpen] at closed
      cases closed
    · have mem : c ∈ tm.pending.buffer := by
        rw [(tr.taken_mem taken).1]
        exact List.mem_cons_self
      cases c with
      | timeout id => exact absent (progress.entry id (.inr (.inr mem)) isOpen)
      | interval id => exact absent (progress.intervalEntry id mem isOpen)
    · exact uncleared (explained.canceled c.id e found canceled)

theorem ReceivedStart.step (old : ReceivedStart log) (explained : Explained tm log)
    (progress : Progress tm) (tr : Transition tm a tm' ev) : ReceivedStart (log ++ ev) := by
  intro pre c post h uncleared unclosed
  rcases split_append h with ⟨mid, hlog, rfl⟩ | ⟨mid, rfl, hev⟩
  · obtain ⟨fn, rest, rfl⟩ := old pre c mid hlog uncleared unclosed
    exact ⟨fn, rest ++ ev, rfl⟩
  · exact tr.taken_starts explained progress hev (fun h => uncleared (h.append mid))
      (fun h => unclosed (List.mem_append_left _ h))

structure History (tm : TimerManager) (log : List Event) : Prop where
  recorded : Recorded tm log
  progress : Progress tm
  explained : Explained tm log
  received : ReceivedStart log

theorem history_new : History newTimerManager [] where
  recorded := inv_new.recorded
  progress := progress_new
  explained := by constructor <;> simp [newTimerManager]
  received := by
    intro pre c post h
    simp at h

theorem History.step (inv : History tm log) (tr : Transition tm a tm' ev) :
    History tm' (log ++ ev) where
  recorded := inv.recorded.step tr
  progress := inv.progress.step inv.recorded tr
  explained := inv.explained.step inv.recorded tr
  received := inv.received.step inv.explained inv.progress tr

theorem run_history {as : List Action} (run : Run as tm log) : History tm log :=
  exec_invariant_all (fun _ _ _ _ _ inv hs => inv.step (step_transition hs)) history_new run

/-- A clear call touches the entry of its own id alone, whichever of the two
functions is called and whichever kind of timer the id belongs to. -/
theorem Transition.clear_result (tr : Transition tm a tm' ev) {i : Int} (clear : a.clears = some i) :
    tm'.closed = tm.closed ∧ ∀ j, j ≠ i → tm'.timers.lookup j = tm.timers.lookup j := by
  cases tr
  case noArgument js call => cases a <;> simp_all [Action.clears, Action.noArgument]
  case clearMiss js _ _ => exact ⟨rfl, fun _ _ => rfl⟩
  case clearOther js _ call =>
    obtain rfl := Option.some.inj (clear.symm.trans call)
    exact ⟨rfl, fun j ne => AList.lookup_insert_ne ne⟩
  case clearTimeout js _ _ | clearInterval js _ _ =>
    obtain rfl := Option.some.inj clear
    exact ⟨rfl, fun j ne => AList.lookup_insert_ne ne⟩
  all_goals cases clear

theorem canStart_clear (sound : Sound tm) {i j : Int} (clear : a.clears = some i) (ne : j ≠ i)
    (hs : step tm a = some (tm', ev)) : CanStart tm' j ↔ CanStart tm j := by
  obtain ⟨hclosed, same⟩ := (step_transition hs).clear_result clear
  cases closed : tm.closed with
  | true =>
    exact iff_of_false (not_canStart_of_closed (hclosed.trans closed) j)
      (not_canStart_of_closed closed j)
  | false =>
    rw [canStart_iff_live (sound.step hs) (hclosed.trans closed), canStart_iff_live sound closed,
      Live, Live, same j ne]

/-- Every start has the history it needs, every received closure of a timer that
is not cleared does start its callback, and a clear call on one id leaves every
other timer able to start exactly when it was. -/
theorem timer_safety {as : List Action} (run : Run as tm log) :
    Guarded StartsAllowed log ∧ ReceivedStart log ∧
    ∀ a i j tm' ev, a.clears = some i → j ≠ i → step tm a = some (tm', ev) →
      (CanStart tm' j ↔ CanStart tm j) :=
  ⟨(run_inv run).guarded, (run_history run).received,
    fun _ _ _ _ _ clear ne hs => canStart_clear (run_sound run) clear ne hs⟩

/-- One timeout has run; clearing another whose firing is queued leaves the interval. -/
theorem timer_safety_run : ∃ tm log tm' ev,
    Run [.setTimeout (some 7) (some 5), .setTimeout (some 8) (some 5), .setInterval (some 9) none,
      .advance 5, .expire 1, .sendTimeout 1, .expire 2, .sendTimeout 2, .processBegin, .receive]
      tm log ∧ step tm (.clearInterval (some 2)) = some (tm', ev) ∧ .started 1 7 ∈ log ∧
      Guarded StartsAllowed log ∧ ReceivedStart log ∧ (CanStart tm' 3 ↔ CanStart tm 3) := by
  obtain ⟨tm, log, tm', ev, run, clear, started⟩ : ∃ tm log tm' ev,
      Run [.setTimeout (some 7) (some 5), .setTimeout (some 8) (some 5),
        .setInterval (some 9) none, .advance 5, .expire 1, .sendTimeout 1, .expire 2,
        .sendTimeout 2, .processBegin, .receive] tm log ∧
      step tm (.clearInterval (some 2)) = some (tm', ev) ∧ .started 1 7 ∈ log :=
    ⟨_, _, _, _, rfl, rfl, by decide⟩
  obtain ⟨guarded, received, others⟩ := timer_safety run
  exact ⟨tm, log, tm', ev, run, clear, started, guarded, received,
    others _ 2 3 _ _ rfl (by decide) clear⟩

end Timers
