import Mathlib.Algebra.BigOperators.Group.Finset.Piecewise
import Mathlib.Data.List.Basic

/-!
# Runs of a partial step function with an event log

A system is given by a partial function from a state and an action to the next
state and the events the step emits; `none` means that the action is not
enabled. Concurrency is in the actions: a run is any list of enabled actions,
so every interleaving of the parties is some run. Nothing here mentions a
particular program.
-/

namespace Runs

universe u v w

variable {σ : Type u} {α : Type v} {ε : Type w}

abbrev Step (σ : Type u) (α : Type v) (ε : Type w) := σ → α → Option (σ × List ε)

/-- Perform the actions in order and collect the events. -/
def exec (step : Step σ α ε) : σ → List α → Option (σ × List ε)
  | s, [] => some (s, [])
  | s, a :: as =>
    match step s a with
    | none => none
    | some (t, ev) =>
      match exec step t as with
      | none => none
      | some (u, log) => some (u, ev ++ log)

theorem exec_cons_iff {step : Step σ α ε} {s u : σ} {a : α} {as : List α} {log : List ε} :
    exec step s (a :: as) = some (u, log) ↔
      ∃ t ev rest, step s a = some (t, ev) ∧ exec step t as = some (u, rest) ∧
        log = ev ++ rest := by
  constructor
  · intro h
    simp only [exec] at h
    split at h
    · cases h
    · rename_i t ev hs
      split at h
      · cases h
      · rename_i u' rest hr
        obtain ⟨rfl, rfl⟩ := Prod.mk.inj (Option.some.inj h)
        exact ⟨t, ev, rest, hs, hr, rfl⟩
  · rintro ⟨t, ev, rest, hs, hr, rfl⟩
    simp [exec, hs, hr]

theorem exec_append {step : Step σ α ε} {s t u : σ} {as bs : List α} {l m : List ε}
    (first : exec step s as = some (t, l)) (second : exec step t bs = some (u, m)) :
    exec step s (as ++ bs) = some (u, l ++ m) := by
  induction as generalizing s l with
  | nil =>
    obtain ⟨rfl, rfl⟩ := Prod.mk.inj (Option.some.inj first)
    exact second
  | cons a as ih =>
    obtain ⟨r, ev, rest, hs, hr, rfl⟩ := exec_cons_iff.mp first
    exact exec_cons_iff.mpr ⟨r, ev, rest ++ m, hs, ih hr, List.append_assoc _ _ _⟩

/-- A computed run that passes a test is a run with that property. -/
theorem exec_of_any {step : Step σ α ε} {s : σ} {as : List α} {test : σ × List ε → Bool}
    (h : (exec step s as).any test = true) :
    ∃ t log, exec step s as = some (t, log) ∧ test (t, log) = true := by
  cases run : exec step s as with
  | none =>
    rw [run] at h
    cases h
  | some r =>
    rw [run] at h
    exact ⟨r.1, r.2, rfl, h⟩

/-- Every action of the run meets `ok` in the state it is performed in. -/
def AllSteps (step : Step σ α ε) (ok : σ → α → Prop) : σ → List α → Prop
  | _, [] => True
  | s, a :: as => ok s a ∧ ∀ t ev, step s a = some (t, ev) → AllSteps step ok t as

theorem allSteps_cons {step : Step σ α ε} {ok : σ → α → Prop} {s t : σ} {a : α} {as : List α}
    {ev : List ε} (first : ok s a) (hs : step s a = some (t, ev))
    (rest : AllSteps step ok t as) : AllSteps step ok s (a :: as) := by
  refine ⟨first, fun t' ev' h => ?_⟩
  rw [hs] at h
  cases h
  exact rest

theorem allSteps_append {step : Step σ α ε} {ok : σ → α → Prop} {s t : σ} {as bs : List α}
    {log : List ε} (first : AllSteps step ok s as) (run : exec step s as = some (t, log))
    (rest : AllSteps step ok t bs) : AllSteps step ok s (as ++ bs) := by
  induction as generalizing s log with
  | nil =>
    obtain ⟨rfl, _⟩ := Prod.mk.inj (Option.some.inj run)
    exact rest
  | cons a as ih =>
    obtain ⟨r, ev, l, hs, hr, _⟩ := exec_cons_iff.mp run
    exact allSteps_cons first.1 hs (ih (first.2 r ev hs) hr)

theorem allSteps_of_forall {step : Step σ α ε} {ok : σ → α → Prop} (h : ∀ s a, ok s a)
    (s : σ) (as : List α) : AllSteps step ok s as := by
  induction as generalizing s with
  | nil => trivial
  | cons a as ih => exact ⟨h s a, fun t _ _ => ih t⟩

theorem allSteps_of_mem {step : Step σ α ε} {allowed : α → Prop} {s : σ} {as : List α}
    (h : ∀ a ∈ as, allowed a) : AllSteps step (fun _ a => allowed a) s as := by
  induction as generalizing s with
  | nil => trivial
  | cons a as ih =>
    exact ⟨h a List.mem_cons_self, fun t _ _ =>
      ih (fun b hb => h b (List.mem_cons_of_mem a hb))⟩

/-- The invariant rule: `I` speaks of the state and of everything logged so far. -/
theorem exec_invariant {step : Step σ α ε} (ok : σ → α → Prop) {I : σ → List ε → Prop}
    (preserved : ∀ s pre a t ev, I s pre → ok s a → step s a = some (t, ev) → I t (pre ++ ev))
    {s t : σ} {as : List α} {pre log : List ε} (start : I s pre)
    (steps : AllSteps step ok s as) (h : exec step s as = some (t, log)) :
    I t (pre ++ log) := by
  induction as generalizing s pre log with
  | nil =>
    obtain ⟨rfl, rfl⟩ := Prod.mk.inj (Option.some.inj h)
    simpa using start
  | cons a as ih =>
    obtain ⟨r, ev, rest, hs, hr, rfl⟩ := exec_cons_iff.mp h
    have next := ih (preserved s pre a r ev start steps.1 hs) (steps.2 r ev hs) hr
    simpa only [List.append_assoc] using next

/-- The invariant rule for a system started with an empty log, every step allowed. -/
theorem exec_invariant_all {step : Step σ α ε} {I : σ → List ε → Prop}
    (preserved : ∀ s pre a t ev, I s pre → step s a = some (t, ev) → I t (pre ++ ev))
    {s t : σ} {as : List α} {log : List ε} (start : I s [])
    (h : exec step s as = some (t, log)) : I t log :=
  exec_invariant (fun _ _ => True) (fun s pre a t ev hi _ hs => preserved s pre a t ev hi hs)
    start (allSteps_of_forall (fun _ _ => trivial) s as) h

/-- The invariant rule for a property of states alone. -/
theorem exec_state_invariant {step : Step σ α ε} (ok : σ → α → Prop) {I : σ → Prop}
    (preserved : ∀ s a t ev, I s → ok s a → step s a = some (t, ev) → I t)
    {s t : σ} {as : List α} {log : List ε} (start : I s)
    (steps : AllSteps step ok s as) (h : exec step s as = some (t, log)) : I t := by
  induction as generalizing s log with
  | nil =>
    obtain ⟨rfl, _⟩ := Prod.mk.inj (Option.some.inj h)
    exact start
  | cons a as ih =>
    obtain ⟨r, ev, rest, hs, hr, _⟩ := exec_cons_iff.mp h
    exact ih (preserved s a r ev start steps.1 hs) (steps.2 r ev hs) hr

/-- An event of a log continued by one more step is old or belongs to that step. -/
theorem split_append {log ev pre post : List ε} {e : ε} (h : log ++ ev = pre ++ e :: post) :
    (∃ mid, log = pre ++ e :: mid ∧ post = mid ++ ev) ∨
      ∃ mid, pre = log ++ mid ∧ ev = mid ++ e :: post := by
  rcases List.append_eq_append_iff.mp h with ⟨mid, rfl, h2⟩ | ⟨mid, rfl, h2⟩
  · exact .inr ⟨mid, rfl, h2⟩
  · cases mid with
    | nil => exact .inr ⟨[], by simp, h2.symm⟩
    | cons x mid =>
      obtain ⟨rfl, rfl⟩ := List.cons.inj h2
      exact .inl ⟨mid, rfl, rfl⟩

/-- `P pre e` holds at every occurrence of an event `e`, `pre` being all earlier events. -/
def Guarded (P : List ε → ε → Prop) (log : List ε) : Prop :=
  ∀ pre e post, log = pre ++ e :: post → P pre e

theorem guarded_nil (P : List ε → ε → Prop) : Guarded P [] := by
  intro pre e post h
  simp at h

theorem guarded_append {P : List ε → ε → Prop} {log ev : List ε} (old : Guarded P log)
    (new : Guarded (fun pre e => P (log ++ pre) e) ev) : Guarded P (log ++ ev) := by
  intro pre e post h
  rcases split_append h with ⟨mid, hlog, _⟩ | ⟨mid, rfl, hev⟩
  · exact old pre e mid hlog
  · exact new mid e post hev

/-- Some occurrence of `f` has an earlier `e`. -/
def Before (e f : ε) (log : List ε) : Prop :=
  ∃ pre post, log = pre ++ f :: post ∧ e ∈ pre

theorem Before.mem_left {e f : ε} {log : List ε} (h : Before e f log) : e ∈ log := by
  obtain ⟨pre, post, rfl, he⟩ := h
  exact List.mem_append_left _ he

theorem Before.mem_right {e f : ε} {log : List ε} (h : Before e f log) : f ∈ log := by
  obtain ⟨pre, post, rfl, _⟩ := h
  simp

theorem Before.append {e f : ε} {log : List ε} (h : Before e f log) (ev : List ε) :
    Before e f (log ++ ev) := by
  obtain ⟨pre, post, rfl, he⟩ := h
  exact ⟨pre, post ++ ev, by simp, he⟩

theorem before_of_mem {e f : ε} {log ev : List ε} (he : e ∈ log) (hf : f ∈ ev) :
    Before e f (log ++ ev) := by
  obtain ⟨pre, post, rfl⟩ := List.append_of_mem hf
  exact ⟨log ++ pre, post, by simp, List.mem_append_left _ he⟩

theorem before_append_of_notMem {e f : ε} {log ev : List ε} (hf : f ∉ ev) :
    Before e f (log ++ ev) ↔ Before e f log := by
  constructor
  · rintro ⟨pre, post, h, he⟩
    rcases split_append h with ⟨mid, hlog, _⟩ | ⟨mid, _, hev⟩
    · exact ⟨pre, mid, hlog, he⟩
    · exact absurd (by simp [hev]) hf
  · exact fun h => h.append ev

/-- A step that emits `f` alone makes it later than everything logged so far. -/
theorem before_append_singleton {e f : ε} {log : List ε} :
    Before e f (log ++ [f]) ↔ e ∈ log := by
  constructor
  · rintro ⟨pre, post, h, he⟩
    rcases split_append h with ⟨mid, rfl, _⟩ | ⟨mid, rfl, hev⟩
    · exact List.mem_append_left _ he
    · cases mid with
      | nil => simpa using he
      | cons x mid => simp at hev
  · exact fun he => before_of_mem he (by simp)

/-- Some continuation by allowed actions emits an event with property `P`. -/
def CanEmit (step : Step σ α ε) (allowed : α → Prop) (P : ε → Prop) (s : σ) : Prop :=
  ∃ as t log, (∀ a ∈ as, allowed a) ∧ exec step s as = some (t, log) ∧ ∃ e ∈ log, P e

theorem CanEmit.of_step {step : Step σ α ε} {allowed : α → Prop} {P : ε → Prop} {s t : σ}
    {a : α} {ev : List ε} (ha : allowed a) (hs : step s a = some (t, ev))
    (h : CanEmit step allowed P t) : CanEmit step allowed P s := by
  obtain ⟨as, u, log, hall, hrun, e, he, hp⟩ := h
  refine ⟨a :: as, u, ev ++ log, ?_, exec_cons_iff.mpr ⟨t, ev, log, hs, hrun, rfl⟩,
    e, List.mem_append_right ev he, hp⟩
  intro b hb
  rcases List.mem_cons.mp hb with rfl | hb
  · exact ha
  · exact hall b hb

theorem CanEmit.of_emit {step : Step σ α ε} {allowed : α → Prop} {P : ε → Prop} {s t : σ}
    {a : α} {ev : List ε} (ha : allowed a) (hs : step s a = some (t, ev))
    (h : ∃ e ∈ ev, P e) : CanEmit step allowed P s := by
  obtain ⟨e, he, hp⟩ := h
  refine ⟨[a], t, ev, by simpa using ha,
    exec_cons_iff.mpr ⟨t, ev, [], hs, rfl, by simp⟩, e, he, hp⟩

/-- A property kept by allowed steps under which none of them emits a `P` event
rules out every `P` event of every continuation. -/
theorem not_canEmit_of_invariant {step : Step σ α ε} {allowed : α → Prop} {P : ε → Prop}
    {I : σ → Prop}
    (preserved : ∀ s a t ev, I s → allowed a → step s a = some (t, ev) →
      I t ∧ ∀ e ∈ ev, ¬ P e)
    {s : σ} (start : I s) : ¬ CanEmit step allowed P s := by
  rintro ⟨as, t, log, hall, hrun, e, he, hp⟩
  have kept : ∀ s pre a t ev, (I s ∧ ∀ e ∈ pre, ¬ P e) → allowed a → step s a = some (t, ev) →
      I t ∧ ∀ e ∈ pre ++ ev, ¬ P e := by
    rintro s pre a t ev ⟨hi, hq⟩ ha hs
    obtain ⟨ht, hev⟩ := preserved s a t ev hi ha hs
    refine ⟨ht, fun x hx => ?_⟩
    rcases List.mem_append.mp hx with hx | hx
    · exact hq x hx
    · exact hev x hx
  have none : I s ∧ ∀ e ∈ ([] : List ε), ¬ P e := ⟨start, by simp⟩
  have quiet := exec_invariant (fun _ a => allowed a) kept none (allSteps_of_mem hall) hrun
  exact quiet.2 e (by simpa using he) hp

/-- Every continuation by allowed actions ends in a state with property `P`. -/
def Always (step : Step σ α ε) (allowed : α → Prop) (P : σ → Prop) (s : σ) : Prop :=
  ∀ as t log, (∀ a ∈ as, allowed a) → exec step s as = some (t, log) → P t

theorem Always.now {step : Step σ α ε} {allowed : α → Prop} {P : σ → Prop} {s : σ}
    (h : Always step allowed P s) : P s :=
  h [] s [] (by simp) rfl

theorem Always.next {step : Step σ α ε} {allowed : α → Prop} {P : σ → Prop} {s t : σ}
    {a : α} {ev : List ε} (h : Always step allowed P s) (ha : allowed a)
    (hs : step s a = some (t, ev)) : Always step allowed P t := by
  intro as u log hall hrun
  refine h (a :: as) u (ev ++ log) ?_ (exec_cons_iff.mpr ⟨t, ev, log, hs, hrun, rfl⟩)
  intro b hb
  rcases List.mem_cons.mp hb with rfl | hb
  · exact ha
  · exact hall b hb

theorem always_of_invariant {step : Step σ α ε} (allowed : α → Prop) {P I : σ → Prop}
    (preserved : ∀ s a t ev, I s → allowed a → step s a = some (t, ev) → I t)
    (enough : ∀ s, I s → P s) {s : σ} (start : I s) : Always step allowed P s := by
  intro as t log hall hrun
  exact enough t (exec_state_invariant (fun _ a => allowed a) preserved start (allSteps_of_mem hall) hrun)

/-- The events about members of `s`, counted one member at a time. -/
theorem sum_countP {ι : Type u} [DecidableEq ι] (about : ε → Option ι) (s : Finset ι)
    (log : List ε) :
    ∑ i ∈ s, log.countP (fun e => about e = some i) =
      log.countP (fun e => (about e).any (fun i => i ∈ s)) := by
  induction log with
  | nil => simp
  | cons e log ih =>
    simp only [List.countP_cons, Finset.sum_add_distrib, ih]
    cases h : about e with
    | none => simp
    | some i =>
      simp only [Option.some.injEq, decide_eq_true_eq, Option.any_some]
      rw [Finset.sum_ite_eq]

end Runs
