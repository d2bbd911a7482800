import Mathlib.Data.List.Count

/-!
# Promises and their job queue

A heap of promises under chosen names: what each has settled to, the reactions
that wait for it, and the jobs that are due, first in first out. A reaction
settles the promise derived from it, by its handler's result or by passing the
outcome on; while a handler runs, the promise it will settle is in `running`.
Which handlers there are and what they do is left to the user of the library.
-/

namespace Promises

universe u v w

variable {P : Type u} {V : Type v} {H : Type w}

inductive Outcome (V : Type v) where
  | fulfilled (value : V)
  | rejected (reason : V)
  deriving DecidableEq

def Outcome.payload : Outcome V → V
  | .fulfilled value => value
  | .rejected reason => reason

/-- What one call of `then` registers, and what a promise resolved with another one does. -/
inductive Reaction (P : Type u) (H : Type w) where
  | handlers (onFulfilled onRejected : Option H) (derived : P)
  | forward (target : P)

def Reaction.target : Reaction P H → P
  | .handlers _ _ derived => derived
  | .forward target => target

/-- The handler an outcome selects; without one the outcome is passed on. -/
def Reaction.handler : Reaction P H → Outcome V → Option H
  | .handlers onFulfilled _ _, .fulfilled _ => onFulfilled
  | .handlers _ onRejected _, .rejected _ => onRejected
  | .forward _, _ => none

/-- `adopt target source` is the job that calls `then` on a promise another was resolved with. -/
inductive Job (P : Type u) (V : Type v) (H : Type w) where
  | react (reaction : Reaction P H) (outcome : Outcome V)
  | adopt (target source : P)

def Job.target : Job P V H → P
  | .react reaction _ => reaction.target
  | .adopt target _ => target

@[simp] theorem Job.target_react (r : Reaction P H) (o : Outcome V) :
    (Job.react r o).target = r.target := rfl

@[simp] theorem Job.target_adopt (target source : P) :
    (Job.adopt target source : Job P V H).target = target := rfl

structure Heap (P : Type u) (V : Type v) (H : Type w) where
  state : P → Option (Outcome V)
  reactions : List (P × Reaction P H)
  jobs : List (Job P V H)
  running : List P

def Heap.empty : Heap P V H := ⟨fun _ => none, [], [], []⟩

/-- How a handler ends. -/
inductive Result (P : Type u) (V : Type v) where
  | value (value : V)
  | promise (source : P)
  | throws (reason : V)

/-- The result by which a handler settles its promise with an outcome. -/
def Outcome.result : Outcome V → Result P V
  | .fulfilled value => .value value
  | .rejected reason => .throws reason

/-- A handler to be called, and the promise its result will settle. -/
structure Invocation (P : Type u) (V : Type v) (H : Type w) where
  handler : H
  argument : V
  derived : P

variable [DecidableEq P]

def settle (h : Heap P V H) (p : P) (o : Outcome V) : Heap P V H :=
  match h.state p with
  | some _ => h
  | none =>
    { h with
      state := fun q => if q = p then some o else h.state q
      reactions := h.reactions.filter (fun x => x.1 ≠ p)
      jobs := h.jobs ++ (h.reactions.filter (fun x => x.1 = p)).map (fun x => .react x.2 o) }

def register (h : Heap P V H) (p : P) (r : Reaction P H) : Heap P V H :=
  match h.state p with
  | none => { h with reactions := h.reactions ++ [(p, r)] }
  | some o => { h with jobs := h.jobs ++ [.react r o] }

/-- `p.then(onFulfilled, onRejected)`, whose result is called `derived`. -/
def andThen (h : Heap P V H) (p : P) (onFulfilled onRejected : Option H) (derived : P) :
    Heap P V H :=
  register h p (.handlers onFulfilled onRejected derived)

/-- Resolve `p` with the result of a handler; `selfResolution` is the error of a promise
resolved with itself. -/
def resolve (h : Heap P V H) (selfResolution : V) (p : P) : Result P V → Heap P V H
  | .value v => settle h p (.fulfilled v)
  | .throws e => settle h p (.rejected e)
  | .promise q =>
    if q = p then settle h p (.rejected selfResolution)
    else { h with jobs := h.jobs ++ [.adopt p q] }

/-- Take the next job. It either completes or leaves a handler to be called. -/
def runJob (h : Heap P V H) : Option (Heap P V H × Option (Invocation P V H)) :=
  match h.jobs with
  | [] => none
  | .adopt target source :: jobs =>
    some (register { h with jobs := jobs } source (.forward target), none)
  | .react r o :: jobs =>
    match r.handler o with
    | none => some (settle { h with jobs := jobs } r.target o, none)
    | some k =>
      some ({ h with jobs := jobs, running := r.target :: h.running },
        some ⟨k, o.payload, r.target⟩)

/-- The handler that was to settle `p` ends. -/
def finish (h : Heap P V H) (selfResolution : V) (p : P) (result : Result P V) : Heap P V H :=
  resolve { h with running := h.running.erase p } selfResolution p result

/-- The number of reactions, jobs and running handlers that will settle `p`. -/
def owed (h : Heap P V H) (p : P) : Nat :=
  h.reactions.countP (fun x => x.2.target = p) + h.jobs.countP (fun j => j.target = p) +
    h.running.count p

/-- Reactions wait for pending promises only, and what will settle a promise is unique. -/
structure WellFormed (h : Heap P V H) : Prop where
  owed_le : ∀ p, owed h p ≤ 1
  owed_pending : ∀ p, 0 < owed h p → h.state p = none
  waiting_pending : ∀ x ∈ h.reactions, h.state x.1 = none

/-- A promise made by `then`: until it is settled exactly one thing will settle it. -/
def Derived (h : Heap P V H) (p : P) : Prop := h.state p = none → owed h p = 1

/-- A name not used so far. -/
def Fresh (h : Heap P V H) (p : P) : Prop := h.state p = none ∧ owed h p = 0

/-- The target of a job: pending, and nothing but the job owes it. -/
structure Due (h : Heap P V H) (p : P) : Prop where
  pending : h.state p = none
  owed : owed h p = 1
  notRunning : p ∉ h.running

/-- `p` is as before. -/
structure Same (h h' : Heap P V H) (p : P) : Prop where
  state : h'.state p = h.state p
  owed : owed h' p = owed h p
  running : p ∈ h'.running ↔ p ∈ h.running

variable {h h' : Heap P V H} {p q : P} {o : Outcome V} {r : Reaction P H} {self : V}

theorem wellFormed_empty : WellFormed (Heap.empty : Heap P V H) := by
  refine ⟨?_, ?_, ?_⟩
  · simp [owed, Heap.empty]
  · intro p _
    rfl
  · intro x mem
    cases mem

theorem fresh_empty (p : P) : Fresh (Heap.empty : Heap P V H) p := ⟨rfl, rfl⟩

theorem WellFormed.free (wf : WellFormed h) (settled : h.state p = some o) : owed h p = 0 := by
  by_contra some_owed
  have pending := wf.owed_pending p (by omega)
  rw [settled] at pending
  cases pending

theorem settle_pending (pending : h.state p = none) (o : Outcome V) :
    settle h p o =
      { h with
        state := fun q => if q = p then some o else h.state q
        reactions := h.reactions.filter (fun x => x.1 ≠ p)
        jobs := h.jobs ++ (h.reactions.filter (fun x => x.1 = p)).map (fun x => .react x.2 o) } := by
  simp only [settle, pending]

theorem state_settle_of_ne (ne : q ≠ p) : (settle h p o).state q = h.state q := by
  simp only [settle]
  split
  · rfl
  · simp [ne]

theorem settle_pending_state (pending : h.state p = none) (o : Outcome V) (q : P) :
    (settle h p o).state q = if q = p then some o else h.state q := by
  rw [settle_pending pending]

theorem state_settle_self (pending : h.state p = none) : (settle h p o).state p = some o := by
  rw [settle_pending_state pending, if_pos rfl]

theorem settle_settled (settled : h.state q = some o) (o' : Outcome V) :
    (settle h p o').state q = some o := by
  by_cases eq : q = p
  · subst eq
    simp only [settle, settled]
  · rw [state_settle_of_ne eq, settled]

@[simp] theorem running_settle : (settle h p o).running = h.running := by
  simp only [settle]
  split <;> rfl

/-- Settling turns the promise's reactions into jobs for the same targets. -/
@[simp] theorem owed_settle (o : Outcome V) (q : P) : owed (settle h p o) q = owed h q := by
  cases state : h.state p with
  | some o' => simp only [settle, state]
  | none =>
    have moved : h.reactions.countP (fun x => x.2.target = q) =
        (h.reactions.filter (fun x => x.1 = p)).countP (fun x => x.2.target = q) +
          (h.reactions.filter (fun x => x.1 ≠ p)).countP (fun x => x.2.target = q) := by
      simp only [ne_eq, decide_not]
      exact List.countP_eq_countP_filter_add _ _ _
    have asJobs : ((h.reactions.filter (fun x => x.1 = p)).map
        (fun x => (Job.react x.2 o : Job P V H))).countP (fun j => j.target = q) =
          (h.reactions.filter (fun x => x.1 = p)).countP (fun x => x.2.target = q) := by
      rw [List.countP_map]
      rfl
    rw [settle_pending state]
    simp only [owed, List.countP_append, asJobs, moved]
    omega

theorem wellFormed_settle (wf : WellFormed h) (free : owed h p = 0) (o : Outcome V) :
    WellFormed (settle h p o) := by
  cases state : h.state p with
  | some o' => simpa only [settle, state] using wf
  | none =>
    refine ⟨fun q => ?_, fun q some_owed => ?_, fun x mem => ?_⟩
    · rw [owed_settle]
      exact wf.owed_le q
    · rw [owed_settle] at some_owed
      have ne : q ≠ p := by
        rintro rfl
        omega
      rw [state_settle_of_ne ne]
      exact wf.owed_pending q some_owed
    · rw [settle_pending state] at mem
      obtain ⟨old, ne⟩ := List.mem_filter.mp mem
      rw [state_settle_of_ne (of_decide_eq_true ne)]
      exact wf.waiting_pending x old

omit [DecidableEq P] in
@[simp] theorem state_register : (register h p r).state = h.state := by
  simp only [register]
  split <;> rfl

omit [DecidableEq P] in
@[simp] theorem running_register : (register h p r).running = h.running := by
  simp only [register]
  split <;> rfl

theorem owed_register (h : Heap P V H) (p : P) (r : Reaction P H) (q : P) :
    owed (register h p r) q = owed h q + if r.target = q then 1 else 0 := by
  simp only [register]
  by_cases eq : r.target = q
  · split
    · simp [owed, eq]
      omega
    · simp [owed, eq]
      omega
  · split <;> simp [owed, eq]

theorem wellFormed_register (wf : WellFormed h) (fresh : Fresh h r.target) (p : P) :
    WellFormed (register h p r) := by
  refine ⟨fun q => ?_, fun q some_owed => ?_, fun x mem => ?_⟩
  · rw [owed_register]
    have le := wf.owed_le q
    split
    · rename_i eq
      have none := fresh.2
      rw [eq] at none
      omega
    · omega
  · rw [state_register]
    rw [owed_register] at some_owed
    split at some_owed
    · rename_i eq
      exact eq ▸ fresh.1
    · exact wf.owed_pending q some_owed
  · rw [state_register]
    simp only [register] at mem
    split at mem
    · rename_i pending
      rcases List.mem_append.mp mem with old | new
      · exact wf.waiting_pending x old
      · rw [List.mem_singleton.mp new]
        exact pending
    · exact wf.waiting_pending x mem

/-- From `h` to `h'` every promise is settled, or as it was, by what owed it. -/
structure Keeps (h h' : Heap P V H) : Prop where
  settled : ∀ p o, h.state p = some o → h'.state p = some o
  pending : ∀ p, h'.state p = none → owed h' p = owed h p
  untouched : ∀ p, owed h p = 0 → owed h' p = 0 ∧ h'.state p = h.state p

theorem Keeps.trans {h'' : Heap P V H} (first : Keeps h h') (second : Keeps h' h'') :
    Keeps h h'' := by
  refine ⟨fun p o state => second.settled p o (first.settled p o state), fun p pending => ?_,
    fun p none => ?_⟩
  · have between : h'.state p = none := by
      cases state : h'.state p with
      | none => rfl
      | some o => rw [second.settled p o state] at pending; cases pending
    rw [second.pending p pending, first.pending p between]
  · obtain ⟨none', same⟩ := first.untouched p none
    obtain ⟨none'', same'⟩ := second.untouched p none'
    exact ⟨none'', same'.trans same⟩

/-- What keeps its state is owed as often as before. -/
theorem Keeps.owed_of_state (keeps : Keeps h h') (wf : WellFormed h) (wf' : WellFormed h')
    (same : h'.state p = h.state p) : owed h' p = owed h p := by
  cases state : h.state p with
  | none => exact keeps.pending p (same.trans state)
  | some o => rw [wf.free state, wf'.free (same.trans state)]

theorem Derived.keeps (derived : Derived h p) (keeps : Keeps h h') : Derived h' p := by
  intro pending
  have before : h.state p = none := by
    cases state : h.state p with
    | none => rfl
    | some o => rw [keeps.settled p o state] at pending; cases pending
  rw [keeps.pending p pending]
  exact derived before

theorem Fresh.keeps (fresh : Fresh h p) (keeps : Keeps h h') : Fresh h' p :=
  ⟨(keeps.untouched p fresh.2).2.trans fresh.1, (keeps.untouched p fresh.2).1⟩

theorem Fresh.settle (fresh : Fresh h p) (ne : p ≠ q) (o : Outcome V) :
    Fresh (settle h q o) p :=
  ⟨(state_settle_of_ne ne).trans fresh.1, (owed_settle o p).trans fresh.2⟩

theorem Derived.register (derived : Derived h p) (ne : r.target ≠ p) (q : P) :
    Derived (register h q r) p := by
  intro pending
  rw [state_register] at pending
  rw [owed_register, if_neg ne]
  exact derived pending

theorem Fresh.register (fresh : Fresh h p) (ne : r.target ≠ p) (q : P) :
    Fresh (register h q r) p := by
  refine ⟨?_, ?_⟩
  · rw [state_register]
    exact fresh.1
  · rw [owed_register, if_neg ne]
    exact fresh.2

theorem derived_register (fresh : Fresh h r.target) (q : P) :
    Derived (register h q r) r.target := by
  intro _
  rw [owed_register, if_pos rfl, fresh.2]

/-- `g` is `h` with one thing that owed `p` removed. -/
structure Spent (h g : Heap P V H) (p : P) : Prop where
  state : g.state = h.state
  reactions : g.reactions = h.reactions
  split : ∀ q, owed h q = owed g q + if p = q then 1 else 0

theorem spent_job {j : Job P V H} {jobs : List (Job P V H)} (eq : h.jobs = j :: jobs) :
    Spent h { h with jobs := jobs } j.target := by
  refine ⟨rfl, rfl, fun q => ?_⟩
  by_cases target : j.target = q
  · simp [owed, eq, target]
    omega
  · simp [owed, eq, target]

theorem spent_running (running : p ∈ h.running) :
    Spent h { h with running := h.running.erase p } p := by
  refine ⟨rfl, rfl, fun q => ?_⟩
  by_cases eq : p = q
  · subst eq
    have some_running : 0 < h.running.count p := List.count_pos_iff.mpr running
    simp only [owed, List.count_erase_self, if_pos]
    omega
  · simp only [owed, List.count_erase_of_ne (Ne.symm eq), if_neg eq, Nat.add_zero]

variable {g : Heap P V H}

theorem Spent.wellFormed (spent : Spent h g p) (wf : WellFormed h) : WellFormed g := by
  refine ⟨fun q => ?_, fun q some_owed => ?_, fun x mem => ?_⟩
  · have le := wf.owed_le q
    have eq := spent.split q
    omega
  · have eq := spent.split q
    rw [spent.state]
    exact wf.owed_pending q (by omega)
  · rw [spent.state]
    exact wf.waiting_pending x (spent.reactions ▸ mem)

theorem Spent.fresh (spent : Spent h g p) (wf : WellFormed h) : Fresh g p := by
  have eq := spent.split p
  rw [if_pos rfl] at eq
  have le := wf.owed_le p
  rw [Fresh, spent.state]
  exact ⟨wf.owed_pending p (by omega), by omega⟩

theorem due_job (wf : WellFormed h) {j : Job P V H} {jobs : List (Job P V H)}
    (eq : h.jobs = j :: jobs) : Due h j.target := by
  have spent := spent_job eq
  obtain ⟨pending, none⟩ := spent.fresh wf
  refine ⟨pending, ?_, ?_⟩
  · rw [spent.split, none, if_pos rfl]
  · intro running
    have counted : 0 < h.running.count j.target := List.count_pos_iff.mpr running
    simp only [owed] at none
    omega

theorem Spent.keeps_settle (spent : Spent h g p) (wf : WellFormed h) (o : Outcome V) :
    Keeps h (settle g p o) := by
  refine ⟨fun q o' state => ?_, fun q state => ?_, fun q none => ?_⟩
  · rw [← spent.state] at state
    exact settle_settled state o
  · rw [owed_settle, spent.split, if_neg, Nat.add_zero]
    rintro rfl
    rw [state_settle_self (spent.fresh wf).1] at state
    cases state
  · rw [spent.split] at none
    have ne : q ≠ p := by
      rintro rfl
      rw [if_pos rfl] at none
      omega
    rw [owed_settle, state_settle_of_ne ne, spent.state]
    exact ⟨by omega, rfl⟩

/-- Something else takes over what was removed. -/
theorem Spent.keeps_replaced (spent : Spent h g p) (state : h'.state = g.state)
    (added : ∀ q, owed h' q = owed g q + if p = q then 1 else 0) : Keeps h h' := by
  have same : ∀ q, owed h' q = owed h q := fun q => (added q).trans (spent.split q).symm
  have states := state.trans spent.state
  exact ⟨fun q o st => by rw [states, st], fun q _ => same q,
    fun q none => ⟨(same q).trans none, by rw [states]⟩⟩

theorem Spent.wellFormed_replaced (spent : Spent h g p) (wf : WellFormed h)
    (state : h'.state = g.state) (reactions : h'.reactions = g.reactions)
    (added : ∀ q, owed h' q = owed g q + if p = q then 1 else 0) : WellFormed h' := by
  have same : ∀ q, owed h' q = owed h q := fun q => (added q).trans (spent.split q).symm
  refine ⟨fun q => ?_, fun q some_owed => ?_, fun x mem => ?_⟩
  · rw [same]
    exact wf.owed_le q
  · rw [state, spent.state]
    exact wf.owed_pending q (same q ▸ some_owed)
  · rw [reactions, spent.reactions] at mem
    rw [state, spent.state]
    exact wf.waiting_pending x mem

/-- What the next job is. -/
theorem runJob_cases {c : Option (Invocation P V H)} (run : runJob h = some (h', c)) :
    (∃ target source jobs, h.jobs = .adopt target source :: jobs ∧ c = none ∧
      h' = register { h with jobs := jobs } source (.forward target)) ∨
    (∃ r o jobs, h.jobs = .react r o :: jobs ∧ r.handler o = none ∧ c = none ∧
      h' = settle { h with jobs := jobs } r.target o) ∨
    (∃ r o jobs k, h.jobs = .react r o :: jobs ∧ r.handler o = some k ∧
      c = some ⟨k, o.payload, r.target⟩ ∧
      h' = { h with jobs := jobs, running := r.target :: h.running }) := by
  simp only [runJob] at run
  split at run
  · cases run
  · rename_i target source jobs eq
    cases run
    exact .inl ⟨target, source, jobs, eq, rfl, rfl⟩
  · rename_i r o jobs eq
    split at run
    · rename_i handler
      cases run
      exact .inr (.inl ⟨r, o, jobs, eq, handler, rfl, rfl⟩)
    · rename_i k handler
      cases run
      exact .inr (.inr ⟨r, o, jobs, k, eq, handler, rfl, rfl⟩)

theorem running_runJob {c : Option (Invocation P V H)} (run : runJob h = some (h', c)) :
    h'.running = (c.map Invocation.derived).toList ++ h.running := by
  rcases runJob_cases run with ⟨_, _, _, _, rfl, rfl⟩ | ⟨_, _, _, _, _, rfl, rfl⟩ |
    ⟨_, _, _, _, _, _, rfl, rfl⟩
  · exact running_register
  · exact running_settle
  · rfl

/-- A job keeps the heap well formed and settles nothing but its target. -/
theorem runJob_spec (wf : WellFormed h) {c : Option (Invocation P V H)}
    (run : runJob h = some (h', c)) : WellFormed h' ∧ Keeps h h' := by
  rcases runJob_cases run with ⟨target, source, jobs, eq, _, rfl⟩ |
    ⟨r, o, jobs, eq, _, _, rfl⟩ | ⟨r, o, jobs, k, eq, _, _, rfl⟩
  · have spent := spent_job eq
    exact ⟨wellFormed_register (r := .forward target) (spent.wellFormed wf) (spent.fresh wf) source,
      spent.keeps_replaced state_register (owed_register _ source (.forward target))⟩
  · have spent := spent_job eq
    exact ⟨wellFormed_settle (spent.wellFormed wf) (spent.fresh wf).2 o, spent.keeps_settle wf o⟩
  · have spent := spent_job eq
    have added : ∀ q, owed { h with jobs := jobs, running := r.target :: h.running } q =
        owed { h with jobs := jobs } q + if r.target = q then 1 else 0 := by
      intro q
      by_cases target : r.target = q
      · simp [owed, target, Nat.add_assoc]
      · simp [owed, target]
    exact ⟨spent.wellFormed_replaced wf rfl rfl added, spent.keeps_replaced rfl added⟩

/-- The end of a handler keeps the heap well formed and settles nothing but its promise. -/
theorem finish_spec (wf : WellFormed h) (running : p ∈ h.running) (self : V)
    (result : Result P V) :
    WellFormed (finish h self p result) ∧ Keeps h (finish h self p result) := by
  have spent := spent_running running
  have settled : ∀ o : Outcome V,
      WellFormed (settle { h with running := h.running.erase p } p o) ∧
        Keeps h (settle { h with running := h.running.erase p } p o) :=
    fun o => ⟨wellFormed_settle (spent.wellFormed wf) (spent.fresh wf).2 o,
      spent.keeps_settle wf o⟩
  cases result with
  | value v => exact settled _
  | throws e => exact settled _
  | promise q =>
    simp only [finish, resolve]
    by_cases eq : q = p
    · rw [if_pos eq]
      exact settled _
    · rw [if_neg eq]
      have added : ∀ x, owed { h with jobs := h.jobs ++ [.adopt p q],
                                      running := h.running.erase p } x =
          owed { h with running := h.running.erase p } x + if p = x then 1 else 0 := by
        intro x
        by_cases target : p = x
        · simp [owed, target]
          omega
        · simp [owed, target]
      exact ⟨spent.wellFormed_replaced wf rfl rfl added, spent.keeps_replaced rfl added⟩

@[simp] theorem running_finish (h : Heap P V H) (self : V) (p : P) (result : Result P V) :
    (finish h self p result).running = h.running.erase p := by
  cases result with
  | value v => exact running_settle
  | throws e => exact running_settle
  | promise q =>
    simp only [finish, resolve]
    split
    · exact running_settle
    · rfl

theorem finish_outcome (h : Heap P V H) (self : V) (p : P) (o : Outcome V) :
    finish h self p o.result = settle { h with running := h.running.erase p } p o := by
  cases o <;> rfl

theorem finish_outcome_state (pending : h.state p = none) (self : V) (o : Outcome V) (q : P) :
    (finish h self p o.result).state q = if q = p then some o else h.state q := by
  rw [finish_outcome, settle_pending_state]
  exact pending

theorem finish_promise_state (ne : q ≠ p) (self : V) :
    (finish h self p (.promise q)).state = h.state := by
  simp only [finish, resolve, if_neg ne]

theorem Same.trans {h'' : Heap P V H} (first : Same h h' p) (second : Same h' h'' p) :
    Same h h'' p :=
  ⟨second.state.trans first.state, second.owed.trans first.owed,
    second.running.trans first.running⟩

theorem Fresh.same (fresh : Fresh h p) (same : Same h h' p) : Fresh h' p :=
  ⟨same.state.trans fresh.1, same.owed.trans fresh.2⟩

theorem Derived.same (derived : Derived h p) (same : Same h h' p) : Derived h' p := by
  intro pending
  rw [same.owed]
  exact derived (same.state.symm.trans pending)

theorem same_settle (ne : p ≠ q) (o : Outcome V) : Same h (settle h q o) p :=
  ⟨state_settle_of_ne ne, owed_settle o p, by rw [running_settle]⟩

theorem same_register (ne : r.target ≠ p) (q : P) : Same h (register h q r) p :=
  ⟨by rw [state_register], by rw [owed_register, if_neg ne, Nat.add_zero],
    by rw [running_register]⟩

/-- A job leaves what it does not settle and does not start to settle. -/
theorem same_runJob (wf : WellFormed h) {c : Option (Invocation P V H)}
    (run : runJob h = some (h', c)) (state : h'.state p = h.state p)
    (notStarted : ∀ k, c = some k → p ≠ k.derived) : Same h h' p := by
  obtain ⟨wf', keeps⟩ := runJob_spec wf run
  refine ⟨state, keeps.owed_of_state wf wf' state, ?_⟩
  rw [running_runJob run]
  cases c with
  | none => rfl
  | some k => simp [notStarted k rfl]

theorem same_finish (wf : WellFormed h) (running : q ∈ h.running) (self : V)
    (result : Result P V) (ne : p ≠ q) : Same h (finish h self q result) p := by
  obtain ⟨wf', keeps⟩ := finish_spec wf running self result
  have state : (finish h self q result).state p = h.state p := by
    cases result with
    | value v => exact state_settle_of_ne ne
    | throws e => exact state_settle_of_ne ne
    | promise source =>
      simp only [finish, resolve]
      split
      · exact state_settle_of_ne ne
      · rfl
  refine ⟨state, keeps.owed_of_state wf wf' state, ?_⟩
  rw [running_finish, List.mem_erase_of_ne ne]

/-- Every reaction is one that `ok` allows for the promise it was registered on; a
scheduled one carries that promise's outcome. -/
structure Registered (ok : P → Reaction P H → Prop) (h : Heap P V H) : Prop where
  waiting : ∀ p r, (p, r) ∈ h.reactions → ok p r
  scheduled : ∀ r o, .react r o ∈ h.jobs → ∃ p, ok p r ∧ h.state p = some o
  adopting : ∀ target source, .adopt target source ∈ h.jobs → ok source (.forward target)

variable {ok : P → Reaction P H → Prop}

omit [DecidableEq P] in
theorem registered_empty : Registered ok (Heap.empty : Heap P V H) :=
  ⟨by simp [Heap.empty], by simp [Heap.empty], by simp [Heap.empty]⟩

omit [DecidableEq P] in
theorem Registered.mono (reg : Registered ok h) {ok' : P → Reaction P H → Prop}
    (le : ∀ p r, ok p r → ok' p r) : Registered ok' h := by
  refine ⟨fun p r mem => le p r (reg.waiting p r mem), fun r o mem => ?_,
    fun target source mem => le _ _ (reg.adopting target source mem)⟩
  obtain ⟨p, allowed, state⟩ := reg.scheduled r o mem
  exact ⟨p, le p r allowed, state⟩

/-- What a running handler will settle is the target of no reaction. -/
theorem Registered.mono_running (reg : Registered ok h) (wf : WellFormed h)
    {ok' : P → Reaction P H → Prop} (le : ∀ p r, ok p r → r.target ∉ h.running → ok' p r) :
    Registered ok' h := by
  have counted : ∀ {target : P}, target ∈ h.running → h.reactions.countP
      (fun x => x.2.target = target) + h.jobs.countP (fun j => j.target = target) = 0 := by
    intro target running
    have one : 0 < h.running.count target := List.count_pos_iff.mpr running
    have le := wf.owed_le target
    simp only [owed] at le
    omega
  have notWaiting : ∀ p r, (p, r) ∈ h.reactions → r.target ∉ h.running := by
    intro p r mem running
    have some_waiting : 0 < h.reactions.countP (fun x => x.2.target = r.target) :=
      List.countP_pos_iff.mpr ⟨_, mem, decide_eq_true rfl⟩
    have none := counted running
    omega
  have notDue : ∀ j ∈ h.jobs, j.target ∉ h.running := by
    intro j mem running
    have some_due : 0 < h.jobs.countP (fun i => i.target = j.target) :=
      List.countP_pos_iff.mpr ⟨_, mem, decide_eq_true rfl⟩
    have none := counted running
    omega
  refine ⟨fun p r mem => le p r (reg.waiting p r mem) (notWaiting p r mem), fun r o mem => ?_,
    fun target source mem => le _ _ (reg.adopting target source mem) (notDue _ mem)⟩
  obtain ⟨p, allowed, state⟩ := reg.scheduled r o mem
  exact ⟨p, le p r allowed (notDue _ mem), state⟩

theorem registered_settle (reg : Registered ok h) (p : P) (o : Outcome V) :
    Registered ok (settle h p o) := by
  cases state : h.state p with
  | some o' => simpa only [settle, state] using reg
  | none =>
    refine ⟨fun q r mem => ?_, fun r o' mem => ?_, fun target source mem => ?_⟩
    · rw [settle_pending state] at mem
      exact reg.waiting q r (List.mem_filter.mp mem).1
    · rw [settle_pending state] at mem
      rcases List.mem_append.mp mem with old | new
      · obtain ⟨q, allowed, settled⟩ := reg.scheduled r o' old
        exact ⟨q, allowed, settle_settled settled o⟩
      · obtain ⟨x, waits, eq⟩ := List.mem_map.mp new
        obtain ⟨old, on⟩ := List.mem_filter.mp waits
        cases eq
        have allowed := reg.waiting x.1 x.2 old
        rw [of_decide_eq_true on] at allowed
        exact ⟨p, allowed, state_settle_self state⟩
    · rw [settle_pending state] at mem
      rcases List.mem_append.mp mem with old | new
      · exact reg.adopting target source old
      · obtain ⟨x, _, eq⟩ := List.mem_map.mp new
        cases eq

omit [DecidableEq P] in
theorem registered_register (reg : Registered ok h) (allowed : ok p r) :
    Registered ok (register h p r) := by
  cases state : h.state p with
  | none =>
    simp only [register, state]
    refine ⟨fun q r' mem => ?_, reg.scheduled, reg.adopting⟩
    rcases List.mem_append.mp mem with old | new
    · exact reg.waiting q r' old
    · cases List.mem_singleton.mp new
      exact allowed
  | some o =>
    simp only [register, state]
    refine ⟨reg.waiting, fun r' o' mem => ?_, fun target source mem => ?_⟩
    · rcases List.mem_append.mp mem with old | new
      · exact reg.scheduled r' o' old
      · cases List.mem_singleton.mp new
        exact ⟨p, allowed, state⟩
    · rcases List.mem_append.mp mem with old | new
      · exact reg.adopting target source old
      · cases List.mem_singleton.mp new

omit [DecidableEq P] in
theorem Registered.take (reg : Registered ok h) {j : Job P V H} {jobs : List (Job P V H)}
    (eq : h.jobs = j :: jobs) (running : List P) :
    Registered ok { h with jobs := jobs, running := running } := by
  have keep : ∀ i ∈ jobs, i ∈ h.jobs := fun i mem => eq ▸ List.mem_cons_of_mem j mem
  exact ⟨reg.waiting, fun r o mem => reg.scheduled r o (keep _ mem),
    fun target source mem => reg.adopting target source (keep _ mem)⟩

theorem registered_runJob (reg : Registered ok h) {c : Option (Invocation P V H)}
    (run : runJob h = some (h', c)) : Registered ok h' := by
  rcases runJob_cases run with ⟨target, source, jobs, eq, _, rfl⟩ |
    ⟨r, o, jobs, eq, _, _, rfl⟩ | ⟨r, o, jobs, k, eq, _, _, rfl⟩
  · exact registered_register (reg.take eq h.running)
      (reg.adopting target source (eq ▸ List.mem_cons_self))
  · exact registered_settle (reg.take eq h.running) r.target o
  · exact reg.take eq (r.target :: h.running)

/-- `adopted` says what a handler may resolve its promise with. -/
theorem registered_finish (reg : Registered ok h) (self : V) (result : Result P V)
    (adopted : ∀ q, result = .promise q → ok q (.forward p)) :
    Registered ok (finish h self p result) := by
  have same : Registered ok { h with running := h.running.erase p } :=
    ⟨reg.waiting, reg.scheduled, reg.adopting⟩
  cases result with
  | value v => exact registered_settle same p _
  | throws e => exact registered_settle same p _
  | promise q =>
    simp only [finish, resolve]
    split
    · exact registered_settle same p _
    · refine ⟨reg.waiting, fun r o mem => ?_, fun target source mem => ?_⟩
      · rcases List.mem_append.mp mem with old | new
        · exact reg.scheduled r o old
        · cases List.mem_singleton.mp new
      · rcases List.mem_append.mp mem with old | new
        · exact reg.adopting target source old
        · cases List.mem_singleton.mp new
          exact adopted _ rfl

/-- A handler that is called belongs to a reaction on a promise with its argument. -/
theorem invocation_registered (wf : WellFormed h) (reg : Registered ok h)
    {c : Invocation P V H} (run : runJob h = some (h', some c)) :
    ∃ p r o, ok p r ∧ h.state p = some o ∧ r.handler o = some c.handler ∧
      c.argument = o.payload ∧ c.derived = r.target ∧ Due h r.target ∧ h'.state = h.state := by
  rcases runJob_cases run with ⟨_, _, _, _, none, _⟩ | ⟨_, _, _, _, _, none, _⟩ |
    ⟨r, o, jobs, k, eq, handler, call, rfl⟩
  · cases none
  · cases none
  · cases call
    obtain ⟨p, allowed, state⟩ := reg.scheduled r o (eq ▸ List.mem_cons_self)
    exact ⟨p, r, o, allowed, state, handler, rfl, rfl, due_job wf eq, rfl⟩

/-- A job that calls no handler settles at most its reaction's target, and with the outcome
of the promise the reaction is on. -/
theorem passed_on_registered (wf : WellFormed h) (reg : Registered ok h)
    (run : runJob h = some (h', none)) :
    h'.state = h.state ∨ ∃ p r o, ok p r ∧ h.state p = some o ∧ r.handler o = none ∧
      Due h r.target ∧ ∀ q, h'.state q = if q = r.target then some o else h.state q := by
  rcases runJob_cases run with ⟨_, _, _, _, _, rfl⟩ | ⟨r, o, jobs, eq, handler, _, rfl⟩ |
    ⟨_, _, _, _, _, _, call, _⟩
  · exact .inl state_register
  · obtain ⟨p, allowed, state⟩ := reg.scheduled r o (eq ▸ List.mem_cons_self)
    exact .inr ⟨p, r, o, allowed, state, handler, due_job wf eq,
      settle_pending_state ((spent_job eq).fresh wf).1 o⟩
  · cases call

/-- A promise that is no reaction's target is owed by nothing. -/
theorem Registered.free (reg : Registered ok h) (none : ∀ q r, ok q r → r.target ≠ p)
    (notRunning : p ∉ h.running) : owed h p = 0 := by
  have waiting : h.reactions.countP (fun x => x.2.target = p) = 0 :=
    List.countP_eq_zero.mpr fun x mem eq =>
      none x.1 x.2 (reg.waiting x.1 x.2 mem) (of_decide_eq_true eq)
  have scheduled : h.jobs.countP (fun j => j.target = p) = 0 := by
    refine List.countP_eq_zero.mpr fun j mem eq => ?_
    cases j with
    | react r o =>
      obtain ⟨q, allowed, _⟩ := reg.scheduled r o mem
      exact none q r allowed (of_decide_eq_true eq)
    | adopt target source =>
      exact none source _ (reg.adopting target source mem) (of_decide_eq_true eq)
  rw [owed, waiting, scheduled, List.count_eq_zero_of_not_mem notRunning]

/-- A pending derived promise for which no job is due and no handler runs waits for
another pending promise. -/
theorem waits (wf : WellFormed h) (reg : Registered ok h) (derived : Derived h p)
    (pending : h.state p = none) (notDue : ∀ j ∈ h.jobs, j.target ≠ p)
    (notRunning : p ∉ h.running) : ∃ q r, ok q r ∧ r.target = p ∧ h.state q = none := by
  have due : h.jobs.countP (fun j => j.target = p) = 0 :=
    List.countP_eq_zero.mpr fun j mem eq => notDue j mem (of_decide_eq_true eq)
  have one := derived pending
  rw [owed, due, List.count_eq_zero_of_not_mem notRunning] at one
  have some_waiting : 0 < h.reactions.countP (fun x => x.2.target = p) := by omega
  obtain ⟨x, mem, target⟩ := List.countP_pos_iff.mp some_waiting
  exact ⟨x.1, x.2, reg.waiting x.1 x.2 mem, of_decide_eq_true target, wf.waiting_pending x mem⟩

end Promises
