import Goqjs.FetchSettle

/-!
# Workers at a full `fm.notify`

The send of the token is a plain send on a channel of 64. A worker that finds it
full waits for the loop to read; whether that can happen is a matter of how many
tokens are in the channel and how many workers have still to send theirs.
-/

namespace Fetches

open Runs

variable {fm fm' : FetchManager} {a : Action} {ev log : List Event}

/-- The last steps of a worker, from its result to its return. -/
def Action.finishes : Action → Option Nat
  | .deliver p => some p
  | .signal p => some p
  | .finish p => some p
  | _ => none

/-- The worker has its result and has not returned. -/
def Worker.finishing : Worker → Bool
  | .delivering _ _ => true
  | .signalling _ => true
  | .returning _ => true
  | _ => false

/-- The worker of `p` has its result and none of its steps can be taken. -/
def Stuck (fm : FetchManager) (p : Nat) : Prop :=
  (fm.workers p).finishing = true ∧ ∀ a, a.finishes = some p → step fm a = none

/-- Whatever the workers with a result do, each of them has a step while it has not
returned; the event loop does nothing meanwhile. -/
def NeverStuck (fm : FetchManager) : Prop :=
  Always step (fun a => a.finishes ≠ none) (fun fm => ∀ p, ¬ Stuck fm p) fm

/-- The worker has its result and has not sent its token. -/
def Worker.owesToken : Worker → Bool
  | .delivering _ _ => true
  | .signalling _ => true
  | _ => false

def owed (fm : FetchManager) : Nat :=
  (List.range fm.fetches).countP (fun p => (fm.workers p).owesToken)

theorem countP_range_eq {f g : Nat → Bool} {n p : Nat} (others : ∀ q, q ≠ p → f q = g q)
    (lt : p < n) :
    (List.range n).countP f + (g p).toNat = (List.range n).countP g + (f p).toNat := by
  induction n with
  | zero => omega
  | succ n ih =>
    simp only [List.range_succ, List.countP_append, List.countP_singleton]
    by_cases last : p = n
    · subst last
      have same : (List.range p).countP f = (List.range p).countP g := by
        apply List.countP_congr
        intro q mem
        rw [others q (Nat.ne_of_lt (List.mem_range.mp mem))]
      rw [same]
      cases f p <;> cases g p <;> simp
    · have := ih (by omega)
      rw [others n (Ne.symm last)]
      omega

/-- The channel of a fetch is free until its worker sends on it. -/
theorem deliver_enabled (stored : Stored fm log) {p : Nat} {body : Bool} {result : HttpResult}
    (at_ : fm.workers p = .delivering body result) :
    ∃ ch, (fm.done p).send result = some ch := by
  have empty : (fm.done p).buffer = [] := by
    apply List.eq_nil_iff_forall_not_mem.mpr
    intro r mem
    have sent := stored.sender p r (stored.buffered p r mem)
    rw [at_] at sent
    cases sent
  obtain ⟨ch, send, _⟩ := (fm.done p).send_of_room result (by simp [empty])
  exact ⟨ch, send⟩

/-- A worker is stuck nowhere but at its token, on a full channel. -/
theorem stuck_iff (stored : Stored fm log) {p : Nat} :
    Stuck fm p ↔ (∃ body, fm.workers p = .signalling body) ∧ fm.notify.buffer.length = 64 := by
  constructor
  · rintro ⟨finishing, none⟩
    cases at_ : fm.workers p with
    | delivering body result =>
      obtain ⟨ch, send⟩ := deliver_enabled stored at_
      have := none (.deliver p) rfl
      simp [step, deliver, at_, send] at this
    | signalling body =>
      refine ⟨⟨body, rfl⟩, (GoChan.send_eq_none (a := ())).mp ?_⟩
      cases send : fm.notify.send () with
      | none => rfl
      | some notify =>
        have := none (.signal p) rfl
        simp [step, signal, at_, send] at this
    | returning body =>
      have := none (.finish p) rfl
      simp [step, finish, at_] at this
    | unset | building | doing | reading | returned =>
      rw [at_] at finishing
      cases finishing
  · rintro ⟨⟨body, at_⟩, full⟩
    refine ⟨by rw [at_]; rfl, fun a fin => ?_⟩
    have none : fm.notify.send () = none := GoChan.send_eq_none.mpr full
    cases a <;> simp [Action.finishes] at fin <;> subst fin <;>
      simp [step, deliver, signal, finish, at_, none]

/-- A worker that is stuck stays so until the loop receives from `NotifyChan`. -/
theorem stuck_for_ever (stored : Stored fm log) {p : Nat} (stuck : Stuck fm p) :
    Always step (fun a => a ≠ .takeToken) (fun fm => Stuck fm p) fm := by
  refine always_of_invariant _ (I := fun fm => (∃ log, Stored fm log) ∧ Stuck fm p) ?_
    (fun _ inv => inv.2) ⟨⟨log, stored⟩, stuck⟩
  rintro s a t ev ⟨⟨l, stored⟩, stuck⟩ noRead hs
  have tr := step_transition hs
  refine ⟨⟨l ++ ev, stored.step tr⟩, (stuck_iff (stored.step tr)).mpr ?_⟩
  obtain ⟨⟨body, at_⟩, full⟩ := (stuck_iff stored).mp stuck
  cases tr
  case takeToken => exact absurd rfl noRead
  case signal send =>
    have room := (GoChan.send_eq_some.mp send).1
    omega
  case fetch =>
    have hp : p ≠ s.fetches := by
      rintro rfl
      rw [stored.beyond s.fetches (Nat.le_refl _)] at at_
      cases at_
    exact ⟨⟨body, by simpa [hp] using at_⟩, full⟩
  case prepare q w before _ _ =>
    have hp : p ≠ q := by
      rintro rfl
      rw [at_] at before
      cases before
    exact ⟨⟨body, by simpa [setWorker, hp] using at_⟩, full⟩
  case deliver q _ _ _ at' _ | finish q _ at' =>
    have hp : p ≠ q := by
      rintro rfl
      rw [at_] at at'
      cases at'
    exact ⟨⟨body, by simpa [setWorker, hp] using at_⟩, full⟩
  all_goals exact ⟨⟨body, at_⟩, full⟩

theorem owed_setWorker (stored : Stored fm log) {p : Nat} (running : fm.workers p ≠ .unset)
    (w : Worker) :
    owed (setWorker fm p w) + (fm.workers p).owesToken.toNat = owed fm + w.owesToken.toNat := by
  have known : p < fm.fetches := by
    by_contra le
    exact running (stored.beyond p (Nat.le_of_not_lt le))
  have balance := countP_range_eq (g := fun q => (fm.workers q).owesToken)
    (f := fun q => ((setWorker fm p w).workers q).owesToken)
    (fun q ne => by simp [setWorker, ne]) known
  simpa [owed, setWorker] using balance

/-- The last steps of the workers: what the channel gains they have paid. -/
theorem Transition.pays (tr : Transition fm a fm' ev) (fin : a.finishes ≠ none)
    (stored : Stored fm log) :
    fm'.notify.buffer.length + owed fm' = fm.notify.buffer.length + owed fm := by
  cases tr
  case deliver q body _ _ at_ _ =>
    have paid := owed_setWorker stored (by rw [at_]; simp) (.signalling body)
    rw [at_] at paid
    simp only [Worker.owesToken, Bool.toNat_true] at paid
    exact congrArg (fm.notify.buffer.length + ·) (Nat.add_right_cancel paid)
  case signal q body _ at_ send =>
    have paid := owed_setWorker stored (by rw [at_]; simp) (.returning body)
    rw [at_] at paid
    simp only [Worker.owesToken, Bool.toNat_true, Bool.toNat_false] at paid
    have sent : ∀ n : GoChan Unit 64, owed { setWorker fm q (.returning body) with notify := n } =
        owed (setWorker fm q (.returning body)) := fun _ => rfl
    rw [sent, (GoChan.send_eq_some.mp send).2, List.length_append, List.length_singleton]
    omega
  case finish q body at_ =>
    have paid := owed_setWorker stored (by rw [at_]; simp) .returned
    rw [at_] at paid
    exact congrArg (fm.notify.buffer.length + ·) paid
  case prepare work => cases a <;> simp_all [Action.worker, Action.finishes]
  all_goals exact absurd rfl fin

theorem neverStuck_of_room (stored : Stored fm log)
    (room : fm.notify.buffer.length + owed fm ≤ 64) : NeverStuck fm := by
  refine always_of_invariant _
    (I := fun fm => (∃ log, Stored fm log) ∧ fm.notify.buffer.length + owed fm ≤ 64)
    ?_ ?_ ⟨⟨log, stored⟩, room⟩
  · rintro s a t ev ⟨⟨l, stored⟩, room⟩ fin hs
    have tr := step_transition hs
    have paid := tr.pays fin stored
    exact ⟨⟨l ++ ev, stored.step tr⟩, by omega⟩
  · rintro s ⟨⟨l, stored⟩, room⟩ p stuck
    obtain ⟨⟨body, at_⟩, full⟩ := (stuck_iff stored).mp stuck
    have paid := owed_setWorker stored (by rw [at_]; simp) .returned
    rw [at_] at paid
    simp only [Worker.owesToken, Bool.toNat_true, Bool.toNat_false] at paid
    omega

theorem room_of_signalling (stored : Stored fm log) (never : NeverStuck fm) {p : Nat} {body : Bool}
    (at_ : fm.workers p = .signalling body)
    (next : ∀ fm' log', Stored fm' log' → NeverStuck fm' →
      fm'.notify.buffer.length = fm.notify.buffer.length + 1 →
      fm'.notify.buffer.length + owed fm' ≤ 64) :
    fm.notify.buffer.length + owed fm ≤ 64 := by
  by_cases full : fm.notify.buffer.length = 64
  · exact absurd ((stuck_iff stored).mpr ⟨⟨body, at_⟩, full⟩) (never.now p)
  · have bounded := fm.notify.bounded
    obtain ⟨notify, send, hq⟩ := fm.notify.send_of_room () (by omega)
    have hs : step fm (.signal p) =
        some ({ setWorker fm p (.returning body) with notify := notify }, [.signalled p]) := by
      simp only [step, signal, at_, send]
    have tr := step_transition hs
    have fin : (Action.signal p).finishes ≠ none := by simp [Action.finishes]
    have paid := tr.pays fin stored
    have bound := next _ _ (stored.step tr) (never.next fin hs) (by simp [hq])
    omega

/-- The owing workers take turns until the channel is full; by induction on its room. -/
theorem room_of_neverStuck (n : Nat) (stored : Stored fm log) (never : NeverStuck fm)
    (room : 64 - fm.notify.buffer.length = n) : fm.notify.buffer.length + owed fm ≤ 64 := by
  induction n using Nat.strongRecOn generalizing fm log with
  | ind n ih =>
    by_contra more
    have bounded := fm.notify.bounded
    have next : ∀ fm' log', Stored fm' log' → NeverStuck fm' →
        fm'.notify.buffer.length = fm.notify.buffer.length + 1 →
        fm'.notify.buffer.length + owed fm' ≤ 64 := by
      intro fm' log' stored' never' longer
      have bounded' := fm'.notify.bounded
      exact ih _ (by omega) stored' never' rfl
    obtain ⟨p, _, owes⟩ := List.countP_pos_iff.mp (show 0 < owed fm by omega)
    cases at_ : fm.workers p with
    | signalling body => exact more (room_of_signalling stored never at_ next)
    | delivering body result =>
      obtain ⟨ch, send⟩ := deliver_enabled stored at_
      have hs : step fm (.deliver p) =
          some ({ setWorker fm p (.signalling body) with done := Function.update fm.done p ch },
            [.delivered p result]) := by
        simp only [step, deliver, at_, send]
      have tr := step_transition hs
      have fin : (Action.deliver p).finishes ≠ none := by simp [Action.finishes]
      have paid := tr.pays fin stored
      have here : (setWorker fm p (.signalling body)).workers p = .signalling body :=
        Function.update_self _ _ _
      have bound := room_of_signalling (stored.step tr) (never.next fin hs) here next
      omega
    | unset | building | doing | reading | returning | returned =>
      rw [at_] at owes
      cases owes

/-- In every reachable state the workers with a result can all take their remaining steps
without the event loop just when the tokens in the channel and those still owed are at
most 64. -/
theorem never_stuck_iff {as : List Action} (run : Run as fm log) :
    NeverStuck fm ↔ fm.notify.buffer.length + owed fm ≤ 64 := by
  obtain ⟨stored, _⟩ := run_stored run
  exact ⟨fun never => room_of_neverStuck _ stored never rfl, neverStuck_of_room stored⟩

/-- One fetch whose request cannot be built, up to its token. -/
def failedFetch (p : Nat) : List Action :=
  [.fetch (some ""), .newRequest p (some "unsupported protocol scheme"), .deliver p]

/-- 65 fetches complete while nobody reads `NotifyChan`: the last worker never returns. -/
theorem neverStuck_fails : ∃ fm log,
    Run ((List.range 65).flatMap failedFetch ++ (List.range 64).map Action.signal) fm log ∧
      ¬ NeverStuck fm ∧ Always step (fun a => a ≠ .takeToken) (fun fm => Stuck fm 64) fm := by
  have computed : (exec step newFetchManager
      ((List.range 65).flatMap failedFetch ++ (List.range 64).map Action.signal)).any
      (fun r => decide (r.1.workers 64 = .signalling false) &&
        decide (r.1.notify.buffer.length = 64)) = true := by
    decide +kernel
  obtain ⟨fm, log, run, test⟩ := exec_of_any computed
  obtain ⟨at_, full⟩ : fm.workers 64 = .signalling false ∧ fm.notify.buffer.length = 64 := by
    simpa using test
  have stored := (run_stored run).1
  have stuck := (stuck_iff stored).mpr ⟨⟨false, at_⟩, full⟩
  exact ⟨fm, log, run, fun never => never.now 64 stuck, stuck_for_ever stored stuck⟩

/-- Two workers with results and an empty channel. -/
theorem never_stuck_iff_run : ∃ fm log,
    Run (failedFetch 0 ++ failedFetch 1 ++ [Action.signal 0]) fm log ∧
      fm.workers 1 = .signalling false ∧
      (NeverStuck fm ↔ fm.notify.buffer.length + owed fm ≤ 64) := by
  obtain ⟨fm, log, run, at_⟩ : ∃ fm log,
      Run (failedFetch 0 ++ failedFetch 1 ++ [Action.signal 0]) fm log ∧
      fm.workers 1 = .signalling false := ⟨_, _, rfl, rfl⟩
  exact ⟨fm, log, run, at_, never_stuck_iff run⟩

end Fetches
