import Goqjs.TimerPending

/-!
# `HasPending`

`HasPending` counts entries and queued closures. A cleared timer keeps its entry
until its own closure is run, and a stopped timer has none coming, so
`HasPending` is compared here with what can still start.
-/

namespace Timers

open Runs

variable {tm tm' : TimerManager} {a : Action} {ev log : List Event}

/-- `HasPending` tells whether some continuation without registrations starts a
callback. -/
def HasPendingExact (tm : TimerManager) : Prop :=
  hasPending tm = true ↔ ∃ id, CanStart tm id

theorem entries_ne_nil_of_mem {id : Int} (h : id ∈ tm.timers) : tm.timers.entries ≠ [] := by
  intro empty
  obtain ⟨e, found⟩ := Option.isSome_iff_exists.mp (AList.lookup_isSome.mpr h)
  have mem := AList.mem_lookup_iff.mp found
  rw [empty] at mem
  cases mem

/-- A queued closure of an open manager has its entry, so the map alone decides. -/
theorem hasPending_iff (progress : Progress tm) (isOpen : tm.closed = false) :
    hasPending tm = true ↔ tm.timers.entries ≠ [] := by
  have queue : tm.pending.buffer ≠ [] → tm.timers.entries ≠ [] := by
    intro ne
    obtain ⟨c, rest, h⟩ := List.exists_cons_of_ne_nil ne
    have mem : c ∈ tm.pending.buffer := h ▸ List.mem_cons_self
    cases c with
    | timeout id => exact entries_ne_nil_of_mem (progress.entry id (.inr (.inr mem)) isOpen)
    | interval id => exact entries_ne_nil_of_mem (progress.intervalEntry id mem isOpen)
  simp only [hasPending, Bool.or_eq_true, decide_eq_true_eq, List.length_pos_iff]
  exact ⟨fun h => h.elim (fun h => h) queue, .inl⟩

/-- In every reachable state of an open manager `HasPending` is exact just when the
map is empty or holds an entry that is not cancelled. -/
theorem hasPending_exact_iff {as : List Action} (run : Run as tm log)
    (isOpen : tm.closed = false) :
    HasPendingExact tm ↔ (tm.timers.entries = [] ∨ ∃ id, Live tm id) := by
  have sound := run_sound run
  obtain ⟨_, _, progress⟩ := run_sound run
  have can : (∃ id, CanStart tm id) ↔ ∃ id, Live tm id :=
    exists_congr fun _ => canStart_iff_live sound isOpen
  rw [HasPendingExact, hasPending_iff progress isOpen, can]
  constructor
  · intro exact_
    by_cases empty : tm.timers.entries = []
    · exact .inl empty
    · exact .inr (exact_.mp empty)
  · rintro (empty | ⟨id, live⟩)
    · exact ⟨fun ne => absurd empty ne, fun ⟨_, live⟩ => absurd empty (entries_ne_nil_of_mem live.mem)⟩
    · exact ⟨fun _ => ⟨id, live⟩, fun _ => entries_ne_nil_of_mem live.mem⟩

/-- A live interval beside a cleared timeout. -/
theorem hasPending_exact_iff_interval : ∃ tm log,
    Run [.setTimeout (some 7) (some 5), .setInterval (some 8) none, .clearTimeout (some 1)]
      tm log ∧ Live tm 2 ∧
      (HasPendingExact tm ↔ (tm.timers.entries = [] ∨ ∃ id, Live tm id)) := by
  obtain ⟨tm, log, run, isOpen, live⟩ : ∃ tm log,
      Run [.setTimeout (some 7) (some 5), .setInterval (some 8) none, .clearTimeout (some 1)]
        tm log ∧ tm.closed = false ∧ Live tm 2 :=
    ⟨_, _, rfl, rfl, ⟨8, true, 1, false⟩, rfl, rfl⟩
  exact ⟨tm, log, run, live, hasPending_exact_iff run isOpen⟩

/-- The entry of `id` is cancelled and no closure of `id` will take it out of the map. -/
structure Stuck (tm : TimerManager) (id : Int) : Prop where
  isOpen : tm.main.isOpen = true
  canceled : ∃ e, tm.timers.lookup id = some e ∧ e.canceled = true
  noFiring : ¬ OnItsWay tm id
  bound : id ≤ tm.counter

theorem Stuck.step {id : Int} (inv : Stuck tm id) (tr : Transition tm a tm' ev)
    (noClose : a ≠ .closeBegin) :
    Stuck tm' id where
  isOpen := by
    have := inv.isOpen
    cases tr <;> first | exact this | simp_all [Main.isOpen]
  canceled := by
    obtain ⟨e, found, canceled⟩ := inv.canceled
    rcases tr.lookup_kept found inv.bound with ⟨e', kept, _, _, same | ⟨now, _⟩⟩ |
        ⟨_, _, live, _⟩ | ⟨_, _, _, hev⟩ | ⟨draining, _⟩
    · exact ⟨e', kept, same.trans canceled⟩
    · exact ⟨e', kept, now⟩
    · rw [canceled] at live
      cases live
    · have taken := tr.taken_mem (c := .timeout id) (by rw [hev]; simp)
      exact absurd (.inr (.inr (by rw [taken.1]; exact List.mem_cons_self))) inv.noFiring
    · have := inv.isOpen
      rw [draining] at this
      cases this
  noFiring := by
    intro way
    rcases tr.onItsWay_origin way with old | ⟨fn, t, d, hev⟩
    · exact inv.noFiring old
    · have := (tr.registered_mem (hev ▸ List.mem_singleton_self _)).1
      have := inv.bound
      omega
  bound := Int.le_trans inv.bound tr.counter_le

theorem Stuck.hasPending {id : Int} (inv : Stuck tm id) : hasPending tm = true := by
  obtain ⟨e, found, _⟩ := inv.canceled
  have ne := entries_ne_nil_of_mem (AList.lookup_isSome.mp (by rw [found]; rfl))
  simp [Timers.hasPending, List.length_pos_iff.mpr ne]

/-- Without `Close` a stuck entry keeps `HasPending` true in every continuation. -/
theorem Stuck.hasPending_always {id : Int} (start : Stuck tm id) :
    Always Timers.step (fun a => a ≠ .closeBegin) (fun tm => Timers.hasPending tm = true) tm := by
  refine always_of_invariant _ (I := fun tm => Stuck tm id) ?_ (fun _ inv => inv.hasPending) start
  intro s a t ev inv noClose hs
  exact inv.step (step_transition hs) noClose

/-- The only timer is cleared before it fires: nothing can run any more, and
`HasPending` says true for ever. -/
theorem hasPending_after_clear : ∃ tm log,
    Run [.setTimeout (some 7) (some 5), .clearTimeout (some 1)] tm log ∧ tm.closed = false ∧
      ¬ HasPendingExact tm ∧
      Always Timers.step (fun a => a ≠ .closeBegin) (fun tm => hasPending tm = true) tm := by
  obtain ⟨tm, log, run, isOpen, entries, main, counter, firing, queue⟩ : ∃ tm log,
      Run [.setTimeout (some 7) (some 5), .clearTimeout (some 1)] tm log ∧ tm.closed = false ∧
      tm.timers.entries = [⟨1, ⟨7, false, 5, true⟩⟩] ∧ tm.main = .idle ∧ tm.counter = 1 ∧
      tm.afterFuncs 1 = .stopped ∧ tm.pending.buffer = [] :=
    ⟨_, _, rfl, rfl, rfl, rfl, rfl, rfl, rfl⟩
  have stuck : Stuck tm 1 := by
    refine ⟨by rw [main]; rfl, ⟨⟨7, false, 5, true⟩, ?_, rfl⟩, ?_, by omega⟩
    · exact AList.mem_lookup_iff.mpr (by rw [entries]; exact List.mem_singleton_self _)
    · simp [OnItsWay, firing, queue]
  refine ⟨tm, log, run, isOpen, fun exact_ => ?_, stuck.hasPending_always⟩
  obtain ⟨id, can⟩ := exact_.mp stuck.hasPending
  obtain ⟨e, found, live⟩ := live_of_canStart can
  have mem := AList.mem_lookup_iff.mp found
  rw [entries, List.mem_singleton] at mem
  cases mem
  cases live

end Timers
