import Goqjs.Requests

/-!
# The callback of a request is called once

A request goes through a few positions, told by its three promises and by what
of it runs. Each says how often the user's callback has been called; a step
moves the request it is about from one position to another and leaves the
others where they are.
-/

namespace Requests

open Runs Js

variable {V : Type} {s s' : State V} {log ev : List (Event V)} {engine : Answers V}
  {h h' : Promises.Heap Name (Value V) (Callback V)} {r i n k : Nat} {q q' : Request V}
  {o : Promises.Outcome (Value V)} {derived : Name} {err : Value V}

/-- The reaction of `fetch(…).then(onResponse)`. -/
def responseReaction (r : Nat) : Promises.Reaction Name (Callback V) :=
  .handlers (some (.onResponse r)) none (.response r)

/-- The reaction of `.catch(onError)`. -/
def failureReaction (r : Nat) : Promises.Reaction Name (Callback V) :=
  .handlers none (some (.onError r)) (.failure r)

/-- The reaction of `resp.text().then(onBody)`. -/
def bodyReaction (r : Nat) (resp : Value V) : Promises.Reaction Name (Callback V) :=
  .handlers (some (.onBody r resp)) none (.body r)

/-- The reactions there are. While the response callback is to come, the body has no
promise. -/
inductive Own (h : Promises.Heap Name (Value V) (Callback V)) :
    Name → Promises.Reaction Name (Callback V) → Prop where
  | response (n r : Nat) (unread : Promises.Fresh h (.body r)) :
      Own h (.user n) (responseReaction r)
  | failure (r : Nat) : Own h (.response r) (failureReaction r)
  | body (t r : Nat) (resp : Value V) : Own h (.user t) (bodyReaction r resp)
  | forward (r : Nat) : Own h (.body r) (.forward (.response r))

theorem Own.mono {p : Name} {x : Promises.Reaction Name (Callback V)} (own : Own h p x)
    (fresh : ∀ r, x.target = .response r → Promises.Fresh h (.body r) →
      Promises.Fresh h' (.body r)) : Own h' p x := by
  cases own with
  | response n r unread => exact .response n r (fresh r rfl unread)
  | failure r => exact .failure r
  | body t r resp => exact .body t r resp
  | forward r => exact .forward r

theorem Own.target_ne_user {p : Name} {x : Promises.Reaction Name (Callback V)} (own : Own h p x)
    (n : Nat) : x.target ≠ .user n := by
  cases own with
  | response m r _ => simp [responseReaction, Promises.Reaction.target]
  | failure r => simp [failureReaction, Promises.Reaction.target]
  | body t r resp => simp [bodyReaction, Promises.Reaction.target]
  | forward r => simp [Promises.Reaction.target]

def names (r : Nat) : List Name := [.response r, .failure r, .body r]

theorem mem_names_ne {p p' : Name} (ne : i ≠ r) (mem : p ∈ names i) (mem' : p' ∈ names r) :
    p ≠ p' := by
  simp only [names, List.mem_cons, List.not_mem_nil, or_false] at mem mem'
  rcases mem with rfl | rfl | rfl <;> rcases mem' with rfl | rfl | rfl <;> simp [ne]

theorem mem_names_ne_user {p : Name} (mem : p ∈ names i) (n : Nat) : p ≠ .user n := by
  simp only [names, List.mem_cons, List.not_mem_nil, or_false] at mem
  rcases mem with rfl | rfl | rfl <;> simp

/-- What the outcome of the success callbacks says about the `k` calls so far. -/
def Reported (q : Request V) (k : Nat) : Promises.Outcome (Value V) → Prop
  | .fulfilled _ => k ≤ 1 ∧ (q.callable = true → q.aborted = true ∨ k = 1)
  | .rejected _ => k ≤ 1 ∧ (k = 0 ∨ q.threw = true)

/-- The body's promise is waited for. -/
def Reading (h : Promises.Heap Name (Value V) (Callback V)) (r : Nat) : Prop :=
  h.state (.body r) = none ∧ Promises.owed h (.body r) = 1

/-- The body's promise has settled, or there will be none. -/
def Over (h : Promises.Heap Name (Value V) (Callback V)) (r : Nat) : Prop :=
  Promises.Fresh h (.body r) ∨ ∃ o, h.state (.body r) = some o

/-- Where a request is, after `k` calls of its callback. -/
inductive Position (h : Promises.Heap Name (Value V) (Callback V)) (r : Nat) (q : Request V) :
    Nat → Prop where
  | waiting (response : h.state (.response r) = none) (failure : h.state (.failure r) = none)
      (body : Promises.Fresh h (.body r)) (stage : q.stage = .idle) : Position h r q 0
  | reading (response : h.state (.response r) = none) (failure : h.state (.failure r) = none)
      (body : Reading h r) (stage : q.stage = .idle) : Position h r q 0
  | preparingBody (resp text : Value V) (response : h.state (.response r) = none)
      (failure : h.state (.failure r) = none) (body : Reading h r)
      (running : .body r ∈ h.running)
      (stage : q.stage = .preparing ⟨.onBody r resp, text, .body r⟩)
      (going : q.aborted = false) : Position h r q 0
  | callingBody (response : h.state (.response r) = none) (failure : h.state (.failure r) = none)
      (body : Reading h r) (running : .body r ∈ h.running)
      (stage : q.stage = .calling (.body r)) : Position h r q 1
  | bodyDone (o : Promises.Outcome (Value V)) (k : Nat) (response : h.state (.response r) = none)
      (failure : h.state (.failure r) = none) (body : h.state (.body r) = some o)
      (stage : q.stage = .idle) (reported : Reported q k o) : Position h r q k
  | responded (o : Promises.Outcome (Value V)) (k : Nat) (response : h.state (.response r) = some o)
      (failure : h.state (.failure r) = none) (body : Over h r)
      (stage : q.stage = .idle) (reported : Reported q k o) : Position h r q k
  | preparingError (e : Value V) (response : h.state (.response r) = some (.rejected e))
      (failure : h.state (.failure r) = none) (body : Over h r)
      (running : .failure r ∈ h.running)
      (stage : q.stage = .preparing ⟨.onError r, e, .failure r⟩)
      (going : q.aborted = false) : Position h r q 0
  | callingError (o : Promises.Outcome (Value V)) (response : h.state (.response r) = some o)
      (failure : h.state (.failure r) = none) (body : Over h r)
      (running : .failure r ∈ h.running)
      (stage : q.stage = .calling (.failure r)) : Position h r q 1
  | settled (o o' : Promises.Outcome (Value V)) (k : Nat)
      (response : h.state (.response r) = some o) (failure : h.state (.failure r) = some o')
      (body : Over h r) (stage : q.stage = .idle) (le : k ≤ 1)
      (once : q.callable = true → q.aborted = true ∨ k = 1) : Position h r q k

/-- A request, issued or not, after `k` calls of its callback. -/
def RequestOk (h : Promises.Heap Name (Value V) (Callback V)) (r : Nat) :
    Option (Request V) → Nat → Prop
  | none, k => (∀ p ∈ names r, Promises.Fresh h p) ∧ k = 0
  | some q, k => Position h r q k

theorem RequestOk.frame {oq : Option (Request V)} (ok : RequestOk h r oq k)
    (same : ∀ p ∈ names r, Promises.Same h h' p) : RequestOk h' r oq k := by
  have response := same (.response r) (by simp [names])
  have failure := same (.failure r) (by simp [names])
  have body := same (.body r) (by simp [names])
  have reading : Reading h r → Reading h' r :=
    fun ⟨pending, one⟩ => ⟨body.state.trans pending, body.owed.trans one⟩
  have fresh : ∀ p ∈ names r, Promises.Fresh h p → Promises.Fresh h' p :=
    fun p mem unused => unused.same (same p mem)
  have over_ : Over h r → Over h' r :=
    Or.imp (fresh _ (by simp [names])) fun ⟨o, state⟩ => ⟨o, body.state.trans state⟩
  cases oq with
  | none => exact ⟨fun p mem => fresh p mem (ok.1 p mem), ok.2⟩
  | some q =>
    cases ok with
    | waiting r₁ f b stage =>
      exact .waiting (response.state.trans r₁) (failure.state.trans f) (fresh _ (by simp [names]) b)
        stage
    | reading r₁ f b stage =>
      exact .reading (response.state.trans r₁) (failure.state.trans f) (reading b) stage
    | preparingBody resp text r₁ f b running stage going =>
      exact .preparingBody resp text (response.state.trans r₁) (failure.state.trans f) (reading b)
        (body.running.mpr running) stage going
    | callingBody r₁ f b running stage =>
      exact .callingBody (response.state.trans r₁) (failure.state.trans f) (reading b)
        (body.running.mpr running) stage
    | bodyDone o _ r₁ f b stage reported =>
      exact .bodyDone o _ (response.state.trans r₁) (failure.state.trans f) (body.state.trans b)
        stage reported
    | responded o _ r₁ f b stage reported =>
      exact .responded o _ (response.state.trans r₁) (failure.state.trans f) (over_ b) stage reported
    | preparingError e r₁ f b running stage going =>
      exact .preparingError e (response.state.trans r₁) (failure.state.trans f) (over_ b)
        (failure.running.mpr running) stage going
    | callingError o r₁ f b running stage =>
      exact .callingError o (response.state.trans r₁) (failure.state.trans f) (over_ b)
        (failure.running.mpr running) stage
    | settled o o' _ r₁ f b stage le once =>
      exact .settled o o' _ (response.state.trans r₁) (failure.state.trans f) (over_ b) stage le once

structure HeapOk (h : Promises.Heap Name (Value V) (Callback V)) : Prop where
  wellFormed : Promises.WellFormed h
  registered : Promises.Registered (Own h) h
  running : ∀ n, .user n ∉ h.running

structure Inv (s : State V) (log : List (Event V)) : Prop where
  heap : HeapOk s.heap
  positions : ∀ r, RequestOk s.heap r (s.requests r) (invocations r log)
  cancelled : ∀ r, .cancelled r ∈ log ↔ ∃ q, s.requests r = some q ∧ q.aborted = true
  not_after : Guarded (fun pre e => ∀ r args, e = .invoked r args → .cancelled r ∉ pre) log

theorem inv_init : Inv (init : State V) [] := by
  refine ⟨⟨Promises.wellFormed_empty, Promises.registered_empty, ?_⟩, ?_, ?_, guarded_nil _⟩
  · intro n mem
    cases mem
  · exact fun r => ⟨fun p _ => Promises.fresh_empty p, rfl⟩
  · intro r
    constructor
    · intro mem
      cases mem
    · rintro ⟨q, eq, _⟩
      cases eq

@[simp] theorem invocations_append (log ev : List (Event V)) :
    invocations r (log ++ ev) = invocations r log + invocations r ev :=
  List.countP_append

theorem Inv.position (inv : Inv s log) (eq : s.requests r = some q) :
    Position s.heap r q (invocations r log) := by
  have ok := inv.positions r
  rwa [eq] at ok

/-- From `h` to `h'` the promise `p` settles with `o`. -/
structure Settles (h h' : Promises.Heap Name (Value V) (Callback V)) (p : Name)
    (o : Promises.Outcome (Value V)) : Prop where
  settled : h'.state p = some o
  others : ∀ p', p' ≠ p → Promises.Same h h' p'

theorem Settles.outside {p : Name} (settles : Settles h h' p o) (mem : p ∈ names r) :
    ∀ p', p' ∉ names r → Promises.Same h h' p' :=
  fun p' notMem => settles.others p' fun eq => notMem (eq ▸ mem)

/-- A step about `r` without events. -/
theorem Inv.quiet (inv : Inv s log) (eq : s.requests r = some q)
    (requests : ∀ i, s'.requests i = if i = r then some q' else s.requests i)
    (aborted : q'.aborted = q.aborted) (heap : HeapOk s'.heap)
    (others : ∀ p, p ∉ names r → Promises.Same s.heap s'.heap p)
    (position : Position s'.heap r q' (invocations r log)) : Inv s' (log ++ []) := by
  rw [List.append_nil]
  refine ⟨heap, fun i => ?_, fun i => ?_, inv.not_after⟩
  · rw [requests]
    by_cases same : i = r
    · subst same
      rw [if_pos rfl]
      exact position
    · rw [if_neg same]
      exact (inv.positions i).frame fun p mem =>
        others p fun mem' => mem_names_ne same mem mem' rfl
  · rw [inv.cancelled i, requests]
    by_cases same : i = r
    · subst same
      simp [eq, aborted]
    · simp [same]

/-- A step that changes promises of the user only, or none. -/
theorem Inv.frame (inv : Inv s log) (requests : s'.requests = s.requests) (heap : HeapOk s'.heap)
    (same : ∀ i, ∀ p ∈ names i, Promises.Same s.heap s'.heap p) : Inv s' (log ++ []) := by
  rw [List.append_nil]
  exact ⟨heap, fun i => requests ▸ (inv.positions i).frame (same i),
    fun i => requests ▸ inv.cancelled i, inv.not_after⟩

theorem Inv.issued (inv : Inv s log) {p : Name} (mem : p ∈ names r)
    (due : Promises.Due s.heap p) : ∃ q, s.requests r = some q := by
  have ok := inv.positions r
  cases eq : s.requests r with
  | some q => exact ⟨q, rfl⟩
  | none =>
    rw [eq] at ok
    have free := (ok.1 p mem).2
    rw [due.owed] at free
    cases free

theorem Over.not_due (body : Over h r) (due : Promises.Due h (.body r)) : False := by
  rcases body with ⟨_, free⟩ | ⟨o, state⟩
  · rw [due.owed] at free
    cases free
  · rw [due.pending] at state
    cases state

theorem Position.waiting_of (position : Position h r q k) (unread : Promises.Fresh h (.body r))
    (pending : h.state (.response r) = none) :
    h.state (.failure r) = none ∧ q.stage = .idle ∧ k = 0 := by
  obtain ⟨bodyPending, free⟩ := unread
  cases position with
  | waiting _ failure _ stage => exact ⟨failure, stage, rfl⟩
  | reading _ _ body _ => rw [body.2] at free; cases free
  | preparingBody _ _ _ _ body _ _ _ => rw [body.2] at free; cases free
  | callingBody _ _ body _ _ => rw [body.2] at free; cases free
  | bodyDone _ _ _ _ body _ _ => rw [bodyPending] at body; cases body
  | responded _ _ response _ _ _ _ => rw [pending] at response; cases response
  | preparingError _ response _ _ _ _ _ => rw [pending] at response; cases response
  | callingError _ response _ _ _ _ => rw [pending] at response; cases response
  | settled _ _ _ response _ _ _ _ _ => rw [pending] at response; cases response

theorem Position.reading_of (position : Position h r q k) (due : Promises.Due h (.body r)) :
    h.state (.response r) = none ∧ h.state (.failure r) = none ∧ q.stage = .idle ∧ k = 0 := by
  cases position with
  | waiting _ _ body _ => exact (Over.not_due (.inl body) due).elim
  | reading response failure _ stage => exact ⟨response, failure, stage, rfl⟩
  | preparingBody _ _ _ _ _ running _ _ => exact absurd running due.notRunning
  | callingBody _ _ _ running _ => exact absurd running due.notRunning
  | bodyDone o _ _ _ body _ _ => exact (Over.not_due (.inr ⟨o, body⟩) due).elim
  | responded _ _ _ _ body _ _ => exact (body.not_due due).elim
  | preparingError _ _ _ body _ _ _ => exact (body.not_due due).elim
  | callingError _ _ _ body _ _ => exact (body.not_due due).elim
  | settled _ _ _ _ _ body _ _ _ => exact (body.not_due due).elim

theorem Position.bodyDone_of (position : Position h r q k)
    (pending : h.state (.response r) = none) (state : h.state (.body r) = some o) :
    h.state (.failure r) = none ∧ q.stage = .idle ∧ Reported q k o := by
  cases position with
  | waiting _ _ body _ => rw [body.1] at state; cases state
  | reading _ _ body _ => rw [body.1] at state; cases state
  | preparingBody _ _ _ _ body _ _ _ => rw [body.1] at state; cases state
  | callingBody _ _ body _ _ => rw [body.1] at state; cases state
  | bodyDone o' _ _ failure body stage reported =>
    rw [state] at body
    cases body
    exact ⟨failure, stage, reported⟩
  | responded _ _ response _ _ _ _ => rw [pending] at response; cases response
  | preparingError _ response _ _ _ _ _ => rw [pending] at response; cases response
  | callingError _ response _ _ _ _ => rw [pending] at response; cases response
  | settled _ _ _ response _ _ _ _ _ => rw [pending] at response; cases response

theorem Position.responded_of (position : Position h r q k) (due : Promises.Due h (.failure r))
    (state : h.state (.response r) = some o) :
    Over h r ∧ q.stage = .idle ∧ Reported q k o := by
  cases position with
  | waiting response _ _ _ => rw [state] at response; cases response
  | reading response _ _ _ => rw [state] at response; cases response
  | preparingBody _ _ response _ _ _ _ _ => rw [state] at response; cases response
  | callingBody response _ _ _ _ => rw [state] at response; cases response
  | bodyDone _ _ response _ _ _ _ => rw [state] at response; cases response
  | responded o' _ response _ body stage reported =>
    rw [state] at response
    cases response
    exact ⟨body, stage, reported⟩
  | preparingError _ _ _ _ running _ _ => exact absurd running due.notRunning
  | callingError _ _ _ _ running _ => exact absurd running due.notRunning
  | settled _ _ _ _ failure _ _ _ _ => rw [due.pending] at failure; cases failure

theorem awaitFetch_eq (h : Promises.Heap Name (Value V) (Callback V)) (n r : Nat) :
    awaitFetch h n r =
      Promises.register (Promises.register h (.user n) (responseReaction r))
        (.response r) (failureReaction r) := rfl

theorem same_awaitFetch {p : Name} (response : .response r ≠ p) (failure : .failure r ≠ p)
    (h : Promises.Heap Name (Value V) (Callback V)) (n : Nat) :
    Promises.Same h (awaitFetch h n r) p :=
  (Promises.same_register (r := responseReaction r) response _).trans
    (Promises.same_register (r := failureReaction r) failure _)

theorem heapOk_awaitFetch (ok : HeapOk h) (fresh : ∀ p ∈ names r, Promises.Fresh h p) (n : Nat) :
    HeapOk (awaitFetch h n r) ∧ (awaitFetch h n r).state = h.state ∧
      ∀ j, Promises.Fresh h (.body j) → Promises.Fresh (awaitFetch h n r) (.body j) := by
  have response := fresh (.response r) (by simp [names])
  have failure := fresh (.failure r) (by simp [names])
  have toFailure : (responseReaction r : Promises.Reaction Name (Callback V)).target ≠
      .failure r := by
    simp [responseReaction, Promises.Reaction.target]
  have wf₁ := Promises.wellFormed_register (r := responseReaction r) ok.wellFormed response (.user n)
  have wf₂ := Promises.wellFormed_register (r := failureReaction r) wf₁
    (failure.register toFailure _) (.response r)
  have keep : ∀ j, Promises.Fresh h (.body j) → Promises.Fresh (awaitFetch h n r) (.body j) :=
    fun j unread => unread.same (same_awaitFetch (by simp) (by simp) h n)
  refine ⟨⟨wf₂, ?_, fun m => ?_⟩, ?_, keep⟩
  · have old := ok.registered.mono fun p x own => own.mono fun j _ => keep j
    exact Promises.registered_register (Promises.registered_register old
      (.response n r (keep r (fresh _ (by simp [names]))))) (.failure r)
  · rw [awaitFetch_eq, Promises.running_register, Promises.running_register]
    exact ok.running m
  · rw [awaitFetch_eq, Promises.state_register, Promises.state_register]

theorem inv_request {callable : Bool} (inv : Inv s log)
    (hs : request s r n callable = some (s', ev)) : Inv s' (log ++ ev) := by
  simp only [request] at hs
  split at hs <;> cases hs
  rename_i eq
  have unissued := inv.positions r
  rw [eq] at unissued
  obtain ⟨fresh, none⟩ := unissued
  obtain ⟨heap, states, keep⟩ := heapOk_awaitFetch inv.heap fresh n
  rw [List.append_nil]
  refine ⟨heap, fun i => ?_, fun i => ?_, inv.not_after⟩
  · by_cases same : i = r
    · subst same
      simp only [State.withRequest, if_true, none]
      exact .waiting ((congrFun states _).trans (fresh _ (by simp [names])).1)
        ((congrFun states _).trans (fresh _ (by simp [names])).1)
        (keep i (fresh _ (by simp [names]))) rfl
    · simp only [State.withRequest, if_neg same]
      refine (inv.positions i).frame fun p mem => same_awaitFetch ?_ ?_ s.heap n
      · exact (mem_names_ne same mem (by simp [names])).symm
      · exact (mem_names_ne same mem (by simp [names])).symm
  · rw [inv.cancelled i]
    by_cases same : i = r
    · subst same
      simp [State.withRequest, eq]
    · simp [State.withRequest, same]

theorem inv_settle (inv : Inv s log) (hs : settle s n o = some (s', ev)) : Inv s' (log ++ ev) := by
  simp only [settle] at hs
  split at hs <;> cases hs
  have free : Promises.owed s.heap (.user n) = 0 :=
    inv.heap.registered.free (fun _ _ own => own.target_ne_user n) (inv.heap.running n)
  have same : ∀ i, ∀ p ∈ names i,
      Promises.Same s.heap (Promises.settle s.heap (.user n) o) p :=
    fun i p mem => Promises.same_settle (mem_names_ne_user mem n) o
  refine inv.frame rfl ⟨Promises.wellFormed_settle inv.heap.wellFormed free o, ?_, fun m => ?_⟩ same
  · refine Promises.registered_settle (inv.heap.registered.mono fun p x own => ?_) _ o
    exact own.mono fun j _ unread => unread.settle (by simp) o
  · rw [Promises.running_settle]
    exact inv.heap.running m

theorem Reported.abort (reported : Reported q k o) : Reported { q with aborted := true } k o := by
  cases o with
  | fulfilled v => exact ⟨reported.1, fun _ => .inl rfl⟩
  | rejected e => exact reported

theorem Position.abort (position : Position h r q k) (ok : ∀ j, q.stage ≠ .preparing j) :
    Position h r { q with aborted := true } k := by
  cases position with
  | waiting response failure body stage => exact .waiting response failure body stage
  | reading response failure body stage => exact .reading response failure body stage
  | preparingBody _ _ _ _ _ _ stage _ => exact absurd stage (ok _)
  | callingBody response failure body running stage =>
    exact .callingBody response failure body running stage
  | bodyDone o _ response failure body stage reported =>
    exact .bodyDone o _ response failure body stage reported.abort
  | responded o _ response failure body stage reported =>
    exact .responded o _ response failure body stage reported.abort
  | preparingError _ _ _ _ _ stage _ => exact absurd stage (ok _)
  | callingError o response failure body running stage =>
    exact .callingError o response failure body running stage
  | settled o o' _ response failure body stage le _ =>
    exact .settled o o' _ response failure body stage le fun _ => .inl rfl

theorem inv_cancel (inv : Inv s log) (ok : ∀ q, s.requests r = some q → ∀ k, q.stage ≠ .preparing k)
    (hs : cancel s r = some (s', ev)) : Inv s' (log ++ ev) := by
  simp only [cancel] at hs
  split at hs <;> cases hs
  rename_i q eq
  refine ⟨inv.heap, fun i => ?_, fun i => ?_, ?_⟩
  · have silent : invocations i [Event.cancelled (V := V) r] = 0 := rfl
    rw [invocations_append, silent, Nat.add_zero]
    by_cases same : i = r
    · subst same
      simp only [State.withRequest, if_true]
      exact (inv.position eq).abort (ok q eq)
    · simp only [State.withRequest, if_neg same]
      exact inv.positions i
  · by_cases same : i = r
    · subst same
      simp [State.withRequest]
    · simp [State.withRequest, same, inv.cancelled i]
  · refine guarded_append inv.not_after ?_
    intro pre e post split i args eq'
    rcases List.cons_eq_append_iff.mp split with ⟨rfl, cons⟩ | ⟨_, rfl, tail⟩
    · cases cons
      cases eq'
    · simp at tail

/-- What a job without a callback settles, and with what. -/
inductive PassedOn (h : Promises.Heap Name (Value V) (Callback V)) :
    Name → Promises.Outcome (Value V) → Prop where
  | response (r : Nat) (e : Value V) (unread : Promises.Fresh h (.body r))
      (due : Promises.Due h (.response r)) : PassedOn h (.response r) (.rejected e)
  | body (r : Nat) (e : Value V) (due : Promises.Due h (.body r)) :
      PassedOn h (.body r) (.rejected e)
  | forward (r : Nat) (o : Promises.Outcome (Value V)) (body : h.state (.body r) = some o)
      (due : Promises.Due h (.response r)) : PassedOn h (.response r) o
  | failure (r : Nat) (v : Value V) (response : h.state (.response r) = some (.fulfilled v))
      (due : Promises.Due h (.failure r)) : PassedOn h (.failure r) (.fulfilled v)

theorem HeapOk.passedOn (ok : HeapOk h) (run : Promises.runJob h = some (h', none)) :
    h'.state = h.state ∨ ∃ p o, PassedOn h p o ∧
      ∀ q, h'.state q = if q = p then some o else h.state q := by
  rcases Promises.passed_on_registered ok.wellFormed ok.registered run with
    same | ⟨p, x, o, own, settled, handler, due, state⟩
  · exact .inl same
  · refine .inr ⟨_, o, ?_, state⟩
    cases own with
    | response n r unread =>
      cases o with
      | fulfilled v => cases handler
      | rejected e => exact .response r e unread due
    | failure r =>
      cases o with
      | fulfilled v => exact .failure r v settled due
      | rejected e => cases handler
    | body t r resp =>
      cases o with
      | fulfilled v => cases handler
      | rejected e => exact .body r e due
    | forward r => exact .forward r o settled due

/-- The callback a job starts. -/
inductive Started (h : Promises.Heap Name (Value V) (Callback V)) :
    Promises.Invocation Name (Value V) (Callback V) → Prop where
  | response (r : Nat) (resp : Value V) (unread : Promises.Fresh h (.body r))
      (due : Promises.Due h (.response r)) : Started h ⟨.onResponse r, resp, .response r⟩
  | body (r : Nat) (resp text : Value V) (due : Promises.Due h (.body r)) :
      Started h ⟨.onBody r resp, text, .body r⟩
  | error (r : Nat) (e : Value V) (response : h.state (.response r) = some (.rejected e))
      (due : Promises.Due h (.failure r)) : Started h ⟨.onError r, e, .failure r⟩

theorem HeapOk.started (ok : HeapOk h) {j : Promises.Invocation Name (Value V) (Callback V)}
    (run : Promises.runJob h = some (h', some j)) : Started h j ∧ h'.state = h.state := by
  obtain ⟨handler, argument, derived⟩ := j
  obtain ⟨p, x, o, own, settled, selected, rfl, rfl, due, same⟩ :=
    Promises.invocation_registered ok.wellFormed ok.registered run
  refine ⟨?_, same⟩
  cases own with
  | response n r unread =>
    cases o with
    | fulfilled v =>
      cases selected
      exact .response r v unread due
    | rejected e => cases selected
  | failure r =>
    cases o with
    | fulfilled v => cases selected
    | rejected e =>
      cases selected
      exact .error r e settled due
  | body t r resp =>
    cases o with
    | fulfilled v =>
      cases selected
      exact .body r resp v due
    | rejected e => cases selected
  | forward r => cases selected

theorem Started.mem_names {j : Promises.Invocation Name (Value V) (Callback V)}
    (started : Started h j) : j.derived ∈ names j.handler.request := by
  cases started <;> simp [names, Callback.request]

theorem Started.due {j : Promises.Invocation Name (Value V) (Callback V)}
    (started : Started h j) : Promises.Due h j.derived := by
  cases started with
  | response _ _ _ due => exact due
  | body _ _ _ due => exact due
  | error _ _ _ due => exact due

theorem heapOk_runJob (ok : HeapOk h)
    {c : Option (Promises.Invocation Name (Value V) (Callback V))}
    (run : Promises.runJob h = some (h', c)) : HeapOk h' := by
  obtain ⟨wf, keeps⟩ := Promises.runJob_spec ok.wellFormed run
  refine ⟨wf, ?_, fun n mem => ?_⟩
  · refine (Promises.registered_runJob ok.registered run).mono fun p x own => ?_
    exact own.mono fun r _ unread => unread.keeps keeps
  · rw [Promises.running_runJob run] at mem
    cases c with
    | none => exact ok.running n mem
    | some j =>
      rcases List.mem_append.mp mem with new | old
      · have derived : Name.user n = j.derived := by simpa using new
        exact mem_names_ne_user (ok.started run).1.mem_names n derived.symm
      · exact ok.running n old

theorem heapOk_finish (ok : HeapOk h) (running : derived ∈ h.running) (self : Value V)
    (result : Promises.Result Name (Value V))
    (adopted : ∀ p, result = .promise p → Own h p (.forward derived)) :
    HeapOk (Promises.finish h self derived result) := by
  obtain ⟨wf, keeps⟩ := Promises.finish_spec ok.wellFormed running self result
  refine ⟨wf, ?_, fun n mem => ?_⟩
  · refine (Promises.registered_finish ok.registered self result adopted).mono fun p x own => ?_
    exact own.mono fun r _ unread => unread.keeps keeps
  · rw [Promises.running_finish] at mem
    exact ok.running n (List.mem_of_mem_erase mem)

theorem settles_finish (ok : HeapOk h) (running : derived ∈ h.running)
    (pending : h.state derived = none) (self : Value V) (o : Promises.Outcome (Value V)) :
    Settles h (Promises.finish h self derived o.result) derived o := by
  refine ⟨?_, fun p ne => Promises.same_finish ok.wellFormed running self _ ne⟩
  rw [Promises.finish_outcome_state pending, if_pos rfl]

/-- What a job that starts a callback leaves as it was. -/
theorem same_started (ok : HeapOk h) {j : Promises.Invocation Name (Value V) (Callback V)}
    (run : Promises.runJob h = some (h', some j)) :
    ∀ p, p ≠ j.derived → Promises.Same h h' p := by
  intro p ne
  refine Promises.same_runJob ok.wellFormed run (congrFun (ok.started run).2 p) ?_
  rintro _ ⟨⟩
  exact ne

theorem Over.same (body : Over h r) (same : Promises.Same h h' (.body r)) : Over h' r := by
  rcases body with unread | ⟨o, state⟩
  · exact .inl (unread.same same)
  · exact .inr ⟨o, same.state.trans state⟩

theorem Position.settle_response (position : Position h r q k)
    (unread : Promises.Fresh h (.body r)) (due : Promises.Due h (.response r))
    (settles : Settles h h' (.response r) o) (reported : k = 0 → Reported q k o) :
    Position h' r q k := by
  obtain ⟨failure, stage, none⟩ := position.waiting_of unread due.pending
  have body := settles.others (.body r) (by simp)
  exact .responded o k settles.settled ((settles.others _ (by simp)).state.trans failure)
    (Over.same (.inl unread) body) stage (reported none)

theorem Position.settle_body (position : Position h r q k) (due : Promises.Due h (.body r))
    (settles : Settles h h' (.body r) o) (reported : k = 0 → Reported q k o) :
    Position h' r q k := by
  obtain ⟨response, failure, stage, none⟩ := position.reading_of due
  exact .bodyDone o k ((settles.others _ (by simp)).state.trans response)
    ((settles.others _ (by simp)).state.trans failure) settles.settled stage (reported none)

theorem Position.settle_forward (position : Position h r q k)
    (body : h.state (.body r) = some o) (due : Promises.Due h (.response r))
    (settles : Settles h h' (.response r) o) : Position h' r q k := by
  obtain ⟨failure, stage, reported⟩ := position.bodyDone_of due.pending body
  exact .responded o k settles.settled ((settles.others _ (by simp)).state.trans failure)
    (Over.same (.inr ⟨o, body⟩) (settles.others _ (by simp))) stage reported

theorem Position.settle_failure {o' : Promises.Outcome (Value V)} (position : Position h r q k)
    (response : h.state (.response r) = some o) (due : Promises.Due h (.failure r))
    (settles : Settles h h' (.failure r) o')
    (once : Reported q k o → q.callable = true → q.aborted = true ∨ k = 1) :
    Position h' r q k := by
  obtain ⟨body, stage, reported⟩ := position.responded_of due response
  have le : k ≤ 1 := by cases o <;> exact reported.1
  exact .settled o o' k ((settles.others _ (by simp)).state.trans response) settles.settled
    (body.same (settles.others _ (by simp))) stage le (once reported)

theorem requests_self (eq : s.requests r = some q) (i : Nat) :
    s.requests i = if i = r then some q else s.requests i := by
  split
  · rename_i same
    rw [same, eq]
  · rfl

theorem inv_passedOn (inv : Inv s log) (run : Promises.runJob s.heap = some (h, none)) :
    Inv { s with heap := h } (log ++ []) := by
  have heap := heapOk_runJob inv.heap run
  have none : ∀ p, ∀ j, (none : Option (Promises.Invocation Name (Value V) (Callback V))) = some j →
      p ≠ j.derived := by
    rintro _ _ ⟨⟩
  rcases inv.heap.passedOn run with same | ⟨p, o, passed, state⟩
  · exact inv.frame rfl heap fun i p _ =>
      Promises.same_runJob inv.heap.wellFormed run (congrFun same p) (none p)
  · have settles : Settles s.heap h p o := by
      refine ⟨by rw [state, if_pos rfl], fun p' ne => ?_⟩
      exact Promises.same_runJob inv.heap.wellFormed run (by rw [state, if_neg ne]) (none p')
    cases passed with
    | response r e unread due =>
      obtain ⟨q, eq⟩ := inv.issued (r := r) (by simp [names]) due
      refine inv.quiet eq (requests_self eq) rfl heap (settles.outside (by simp [names])) ?_
      refine (inv.position eq).settle_response unread due settles fun none => ?_
      exact ⟨by omega, .inl none⟩
    | body r e due =>
      obtain ⟨q, eq⟩ := inv.issued (r := r) (by simp [names]) due
      refine inv.quiet eq (requests_self eq) rfl heap (settles.outside (by simp [names])) ?_
      exact (inv.position eq).settle_body due settles fun none => ⟨by omega, .inl none⟩
    | forward r o body due =>
      obtain ⟨q, eq⟩ := inv.issued (r := r) (by simp [names]) due
      refine inv.quiet eq (requests_self eq) rfl heap (settles.outside (by simp [names])) ?_
      exact (inv.position eq).settle_forward body due settles
    | failure r v response due =>
      obtain ⟨q, eq⟩ := inv.issued (r := r) (by simp [names]) due
      refine inv.quiet eq (requests_self eq) rfl heap (settles.outside (by simp [names])) ?_
      exact (inv.position eq).settle_failure response due settles fun reported => reported.2

/-- The callback that a job has started ends at once. -/
theorem inv_endsAtOnce {j : Promises.Invocation Name (Value V) (Callback V)} (inv : Inv s log)
    (run : Promises.runJob s.heap = some (h, some j))
    (eq : s.requests j.handler.request = some q) (self : Value V)
    (o : Promises.Outcome (Value V))
    (position : ∀ h', Settles s.heap h' j.derived o →
      Position h' j.handler.request q (invocations j.handler.request log)) :
    Inv { s with heap := Promises.finish h self j.derived o.result } (log ++ []) := by
  obtain ⟨started, same⟩ := inv.heap.started run
  have heap := heapOk_runJob inv.heap run
  have running : j.derived ∈ h.running := by simp [Promises.running_runJob run]
  have pending : h.state j.derived = none := (congrFun same _).trans started.due.pending
  have settles := settles_finish heap running pending self o
  have settles' : Settles s.heap (Promises.finish h self j.derived o.result) j.derived o :=
    ⟨settles.settled, fun p ne => (same_started inv.heap run p ne).trans (settles.others p ne)⟩
  refine inv.quiet eq (requests_self eq) rfl ?_ (settles'.outside started.mem_names)
    (position _ settles')
  exact heapOk_finish heap running self _ fun p promise => by cases o <;> cases promise

theorem inv_aborted {j : Promises.Invocation Name (Value V) (Callback V)} (inv : Inv s log)
    (run : Promises.runJob s.heap = some (h, some j))
    (eq : s.requests j.handler.request = some q) (aborted : q.aborted = true) (self : Value V) :
    Inv { s with heap := Promises.finish h self j.derived (.value .undefined) } (log ++ []) := by
  refine inv_endsAtOnce inv run eq self (.fulfilled .undefined) fun h' settles => ?_
  have position := inv.position eq
  cases (inv.heap.started run).1 with
  | response r resp unread due =>
    exact position.settle_response unread due settles fun none =>
      ⟨by omega, fun _ => .inl aborted⟩
  | body r resp text due =>
    exact position.settle_body due settles fun none => ⟨by omega, fun _ => .inl aborted⟩
  | error r e response due =>
    exact position.settle_failure response due settles fun _ _ => .inl aborted

/-- `return resp.text().then(onBody)`: the response's promise waits for the body's. -/
theorem heapOk_readBody {resp : Value V} {t : Nat} (self : Value V) (ok : HeapOk h)
    (unread : Promises.Fresh h (.body r)) (running : .response r ∈ h.running)
    (after : h' = Promises.finish (Promises.register h (.user t) (bodyReaction r resp)) self
      (.response r) (.promise (.body r))) :
    HeapOk h' ∧ h'.state = h.state ∧ Promises.owed h' (.body r) = 1 ∧
      ∀ p, p ∉ names r → Promises.Same h h' p := by
  have fresh : Promises.Fresh h (bodyReaction r resp : Promises.Reaction Name _).target := unread
  have heap₁ : HeapOk (Promises.register h (.user t) (bodyReaction r resp)) := by
    refine ⟨Promises.wellFormed_register ok.wellFormed fresh _, ?_, fun n => ?_⟩
    · refine Promises.registered_register ?_ (.body t r resp)
      refine ok.registered.mono_running ok.wellFormed fun p x own notRunning => ?_
      refine own.mono fun j target unread' => unread'.register ?_ _
      rintro ⟨⟩
      exact notRunning (target ▸ running)
    · rw [Promises.running_register]
      exact ok.running n
  have running₁ : Name.response r ∈
      (Promises.register h (.user t) (bodyReaction r resp)).running := by
    rw [Promises.running_register]
    exact running
  have ne : Name.body r ≠ .response r := by simp
  have same : ∀ p, p ≠ .response r →
      Promises.Same (Promises.register h (.user t) (bodyReaction r resp)) h' p :=
    fun p ne' => after ▸ Promises.same_finish heap₁.wellFormed running₁ _ _ ne'
  refine ⟨after ▸ heapOk_finish heap₁ running₁ _ _ ?_, ?_, ?_, fun p notMem => ?_⟩
  · rintro _ ⟨⟩
    exact .forward r
  · rw [after, Promises.finish_promise_state ne, Promises.state_register]
  · rw [(same _ ne).owed, Promises.owed_register, unread.2, Nat.zero_add]
    exact if_pos rfl
  · have neBody : (bodyReaction r resp).target ≠ p := by
      rintro rfl
      exact notMem (by simp [names, bodyReaction, Promises.Reaction.target])
    have neResponse : p ≠ .response r := by
      rintro rfl
      exact notMem (by simp [names])
    exact (Promises.same_register neBody _).trans (same p neResponse)

theorem inv_readBody {resp : Value V} (inv : Inv s log)
    (run : Promises.runJob s.heap = some (h, some ⟨.onResponse r, resp, .response r⟩))
    (eq : s.requests r = some q) :
    Inv (readBody { s with heap := h } engine r (.response r) resp) (log ++ []) := by
  obtain ⟨started, states⟩ := inv.heap.started run
  cases started with
  | response _ _ unread due =>
    cases text : engine.text resp with
    | error err =>
      simp only [readBody, text, finish]
      refine inv_endsAtOnce inv run eq engine.typeError (.rejected err) fun h' settles => ?_
      exact (inv.position eq).settle_response unread due settles fun none => ⟨by omega, .inl none⟩
    | ok t =>
      have heap := heapOk_runJob inv.heap run
      have sameRun := same_started inv.heap run
      have body := sameRun (.body r) (by simp)
      have running : Name.response r ∈ h.running := by simp [Promises.running_runJob run]
      simp only [readBody, text, finish]
      obtain ⟨heap', state, owed, same⟩ := heapOk_readBody engine.typeError heap
        (unread.same body) running rfl
      have state' := fun p => (congrFun state p).trans (congrFun states p)
      obtain ⟨failure, stage, none⟩ := (inv.position eq).waiting_of unread due.pending
      refine inv.quiet eq (requests_self eq) rfl heap' (fun p notMem => ?_) ?_
      · refine (sameRun p ?_).trans (same p notMem)
        rintro rfl
        exact notMem (by simp [names])
      · rw [none]
        exact .reading ((state' _).trans due.pending) ((state' _).trans failure)
          ⟨(state' _).trans unread.1, owed⟩ stage

/-- A callback that goes on to the user's callback: it starts to prepare the call. -/
theorem inv_prepares {j : Promises.Invocation Name (Value V) (Callback V)} (inv : Inv s log)
    (run : Promises.runJob s.heap = some (h, some j))
    (eq : s.requests j.handler.request = some q)
    (requests : ∀ i, s'.requests i = if i = j.handler.request then
      some { q with stage := .preparing j } else s.requests i)
    (heap : s'.heap = h)
    (position : Position h j.handler.request { q with stage := .preparing j }
      (invocations j.handler.request log)) : Inv s' (log ++ []) := by
  subst heap
  obtain ⟨started, _⟩ := inv.heap.started run
  refine inv.quiet eq requests rfl (heapOk_runJob inv.heap run) (fun p notMem => ?_) position
  exact same_started inv.heap run p fun eq => notMem (eq ▸ started.mem_names)

theorem inv_runJob (inv : Inv s log)
    (ok : ∀ h k, Promises.runJob s.heap = some (h, some k) → ∀ r q, k.handler = .onError r →
      s.requests r = some q → q.aborted = true ∨ q.threw = false)
    (hs : runJob s engine = some (s', ev)) : Inv s' (log ++ ev) := by
  simp only [runJob] at hs
  split at hs
  · cases hs
  · rename_i h run
    cases hs
    exact inv_passedOn inv run
  · rename_i h j run
    obtain ⟨started, states⟩ := inv.heap.started run
    have state := fun p => congrFun states p
    have same := same_started inv.heap run
    have running : j.derived ∈ h.running := by simp [Promises.running_runJob run]
    split at hs
    · cases hs
    · rename_i q eq
      split at hs
      · rename_i aborted
        cases hs
        exact inv_aborted inv run eq aborted engine.typeError
      · rename_i notAborted
        have going : q.aborted = false := Bool.eq_false_iff.mpr notAborted
        have position := inv.position eq
        cases started with
        | response r resp unread due =>
          cases hs
          exact inv_readBody inv run eq
        | body r resp text due =>
          cases hs
          obtain ⟨response, failure, stage, none⟩ := position.reading_of due
          have one := (Promises.runJob_spec inv.heap.wellFormed run).2.pending (.body r)
            ((state _).trans due.pending)
          refine inv_prepares inv run eq (fun i => rfl) rfl ?_
          simp only [Callback.request] at none ⊢
          rw [none]
          exact .preparingBody resp text ((state _).trans response) ((state _).trans failure)
            ⟨(state _).trans due.pending, one.trans due.owed⟩ running rfl going
        | error r e response due =>
          cases hs
          obtain ⟨body, stage, reported⟩ := position.responded_of due response
          have none : invocations r log = 0 := by
            rcases ok _ _ run r q rfl eq with aborted | notThrew
            · rw [going] at aborted
              cases aborted
            · rcases reported.2 with none | threw
              · exact none
              · rw [notThrew] at threw
                cases threw
          refine inv_prepares inv run eq (fun i => rfl) rfl ?_
          simp only [Callback.request]
          rw [none]
          exact .preparingError e ((state _).trans response) ((state _).trans due.pending)
            (body.same (same _ (by simp))) running rfl going

theorem Position.preparing_of {j : Promises.Invocation Name (Value V) (Callback V)}
    (position : Position h r q k) (stage : q.stage = .preparing j) :
    q.aborted = false ∧ k = 0 ∧ h.state (.failure r) = none ∧ j.derived ∈ h.running ∧
      ((∃ resp text, j = ⟨.onBody r resp, text, .body r⟩ ∧ h.state (.response r) = none ∧
          Reading h r) ∨
        ∃ e, j = ⟨.onError r, e, .failure r⟩ ∧ h.state (.response r) = some (.rejected e) ∧
          Over h r) := by
  cases position with
  | waiting _ _ _ idle => rw [idle] at stage; cases stage
  | reading _ _ _ idle => rw [idle] at stage; cases stage
  | preparingBody resp text response failure body running preparing going =>
    rw [preparing] at stage
    cases stage
    exact ⟨going, rfl, failure, running, .inl ⟨resp, text, rfl, response, body⟩⟩
  | callingBody _ _ _ _ calling => rw [calling] at stage; cases stage
  | bodyDone _ _ _ _ _ idle _ => rw [idle] at stage; cases stage
  | responded _ _ _ _ _ idle _ => rw [idle] at stage; cases stage
  | preparingError e response failure body running preparing going =>
    rw [preparing] at stage
    cases stage
    exact ⟨going, rfl, failure, running, .inr ⟨e, rfl, response, body⟩⟩
  | callingError _ _ _ _ _ calling => rw [calling] at stage; cases stage
  | settled _ _ _ _ _ _ idle _ _ => rw [idle] at stage; cases stage

theorem Position.calling_of (position : Position h r q k) (stage : q.stage = .calling derived) :
    k = 1 ∧ h.state (.failure r) = none ∧ derived ∈ h.running ∧
      ((derived = .body r ∧ h.state (.response r) = none ∧ Reading h r) ∨
        ∃ o, derived = .failure r ∧ h.state (.response r) = some o ∧ Over h r) := by
  cases position with
  | waiting _ _ _ idle => rw [idle] at stage; cases stage
  | reading _ _ _ idle => rw [idle] at stage; cases stage
  | preparingBody _ _ _ _ _ _ preparing _ => rw [preparing] at stage; cases stage
  | callingBody response failure body running calling =>
    rw [calling] at stage
    cases stage
    exact ⟨rfl, failure, running, .inl ⟨rfl, response, body⟩⟩
  | bodyDone _ _ _ _ _ idle _ => rw [idle] at stage; cases stage
  | responded _ _ _ _ _ idle _ => rw [idle] at stage; cases stage
  | preparingError _ _ _ _ _ preparing _ => rw [preparing] at stage; cases stage
  | callingError o response failure body running calling =>
    rw [calling] at stage
    cases stage
    exact ⟨rfl, failure, running, .inr ⟨o, rfl, response, body⟩⟩
  | settled _ _ _ _ _ _ idle _ _ => rw [idle] at stage; cases stage

/-- The callback that was to settle the body's promise ends. -/
theorem inv_ends_body (inv : Inv s log) (eq : s.requests r = some q)
    (response : s.heap.state (.response r) = none) (failure : s.heap.state (.failure r) = none)
    (body : Reading s.heap r) (running : .body r ∈ s.heap.running) (o : Promises.Outcome (Value V))
    (aborted : q'.aborted = q.aborted)
    (reported : Reported { q' with stage := .idle } (invocations r log) o) :
    Inv (ends s engine r q' (.body r) o.result).1 (log ++ (ends s engine r q' (.body r) o.result).2) := by
  have settles := settles_finish inv.heap running body.1 engine.typeError o
  refine inv.quiet eq (fun i => rfl) aborted ?_ (settles.outside (by simp [names])) ?_
  · exact heapOk_finish inv.heap running engine.typeError _ fun p promise => by
      cases o <;> cases promise
  · exact .bodyDone o _ ((settles.others _ (by simp)).state.trans response)
      ((settles.others _ (by simp)).state.trans failure) settles.settled rfl reported

/-- The error callback ends, and with it the chain. -/
theorem inv_ends_failure {o' : Promises.Outcome (Value V)} (inv : Inv s log)
    (eq : s.requests r = some q) (response : s.heap.state (.response r) = some o')
    (failure : s.heap.state (.failure r) = none) (body : Over s.heap r)
    (running : .failure r ∈ s.heap.running) (o : Promises.Outcome (Value V))
    (aborted : q'.aborted = q.aborted) (le : invocations r log ≤ 1)
    (once : q'.callable = true → q'.aborted = true ∨ invocations r log = 1) :
    Inv (ends s engine r q' (.failure r) o.result).1
      (log ++ (ends s engine r q' (.failure r) o.result).2) := by
  have settles := settles_finish inv.heap running failure engine.typeError o
  refine inv.quiet eq (fun i => rfl) aborted ?_ (settles.outside (by simp [names])) ?_
  · exact heapOk_finish inv.heap running engine.typeError _ fun p promise => by
      cases o <;> cases promise
  · exact .settled o' o _ ((settles.others _ (by simp)).state.trans response) settles.settled
      (body.same (settles.others _ (by simp))) rfl le once

/-- The user's callback is called. -/
theorem inv_invoked {args : List (Value V)} (inv : Inv s log) (eq : s.requests r = some q)
    (going : q.aborted = false)
    (position : Position s.heap r { q with stage := .calling derived } (invocations r log + 1)) :
    Inv (s.withRequest r { q with stage := .calling derived }) (log ++ [.invoked r args]) := by
  refine ⟨inv.heap, fun i => ?_, fun i => ?_, guarded_append inv.not_after ?_⟩
  · by_cases same : i = r
    · subst same
      have one : invocations i [Event.invoked i args] = 1 := by simp [invocations]
      simp only [State.withRequest, if_true, invocations_append, one]
      exact position
    · have none : invocations i [Event.invoked r args] = 0 := by
        simp [invocations, Ne.symm same]
      simp only [State.withRequest, if_neg same, invocations_append, none]
      exact inv.positions i
  · have old : Event.cancelled i ∈ log ++ [.invoked r args] ↔ .cancelled i ∈ log := by simp
    rw [old, inv.cancelled i]
    by_cases same : i = r
    · subst same
      simp [State.withRequest, eq]
    · simp [State.withRequest, same]
  · intro pre e post split i args' eq'
    rcases List.cons_eq_append_iff.mp split with ⟨rfl, cons⟩ | ⟨_, rfl, tail⟩
    · cases cons
      cases eq'
      rw [List.append_nil]
      intro cancelled
      obtain ⟨q₁, eq₁, aborted⟩ := (inv.cancelled r).mp cancelled
      rw [eq] at eq₁
      cases eq₁
      rw [going] at aborted
      cases aborted
    · simp at tail

/-- The arguments of the user's callback are made, or an error ends the callback. -/
theorem inv_invoke {args : Except (Value V) (List (Value V))} (inv : Inv s log)
    (eq : s.requests r = some q) (going : q.aborted = false)
    (called : Position s.heap r { q with stage := .calling derived } (invocations r log + 1))
    (failed : ∀ err, args = .error err → Inv (ends s engine r q derived (.throws err)).1
      (log ++ (ends s engine r q derived (.throws err)).2))
    (out : invoke s engine r q derived args = (s', ev)) : Inv s' (log ++ ev) := by
  cases args with
  | error err =>
    simp only [invoke] at out
    cases out
    exact failed err rfl
  | ok args =>
    simp only [invoke] at out
    cases out
    exact inv_invoked inv eq going called

theorem inv_prepared (inv : Inv s log)
    (ok : ∀ q k i, s.requests r = some q → q.stage = .preparing k → k.handler = .onError i →
      q.callable = true → ∃ args, failureArgs engine k.argument = .ok args)
    (hs : prepared s engine r = some (s', ev)) : Inv s' (log ++ ev) := by
  simp only [prepared] at hs
  split at hs
  · cases hs
  · rename_i q eq
    split at hs
    · rename_i j stage
      obtain ⟨going, none, failure, running, ⟨resp, text, rfl, response, body⟩ |
        ⟨e, rfl, response, body⟩⟩ := (inv.position eq).preparing_of stage
      · have threw : ∀ err, Inv (ends s engine r q (.body r) (.throws err)).1
            (log ++ (ends s engine r q (.body r) (.throws err)).2) := fun err =>
          inv_ends_body inv eq response failure body running (.rejected err) rfl
            ⟨by omega, .inl none⟩
        simp only at hs
        split at hs
        · refine inv_invoke inv eq going ?_ (fun err _ => threw err) (Option.some.inj hs)
          rw [none]
          exact .callingBody response failure body running rfl
        · rename_i notCallable
          split at hs
          · cases hs
            exact threw _
          · cases hs
            refine inv_ends_body inv eq response failure body running (.fulfilled .undefined) rfl ?_
            exact ⟨by omega, fun callable => absurd callable notCallable⟩
      · simp only at hs
        split at hs
        · rename_i callable
          obtain ⟨args, made⟩ := ok q _ r eq stage rfl callable
          refine inv_invoke inv eq going ?_ (fun err failed => ?_) (Option.some.inj hs)
          · rw [none]
            exact .callingError _ response failure body running rfl
          · cases made.symm.trans failed
        · rename_i notCallable
          cases hs
          exact inv_ends_failure inv eq response failure body running (.fulfilled .undefined) rfl
            (by omega) fun callable => absurd callable notCallable
    · cases hs

theorem inv_callbackReturns (inv : Inv s log)
    (hs : callbackReturns s engine r = some (s', ev)) : Inv s' (log ++ ev) := by
  simp only [callbackReturns] at hs
  split at hs
  · cases hs
  · rename_i q eq
    split at hs
    · rename_i derived stage
      obtain ⟨one, failure, running, ⟨rfl, response, body⟩ | ⟨o, rfl, response, body⟩⟩ :=
        (inv.position eq).calling_of stage
      · cases hs
        exact inv_ends_body inv eq response failure body running (.fulfilled .undefined) rfl
          ⟨by omega, fun _ => .inr one⟩
      · cases hs
        exact inv_ends_failure inv eq response failure body running (.fulfilled .undefined) rfl
          (by omega) fun _ => .inr one
    · cases hs

theorem inv_callbackThrows (inv : Inv s log)
    (hs : callbackThrows s engine r err = some (s', ev)) : Inv s' (log ++ ev) := by
  simp only [callbackThrows] at hs
  split at hs
  · cases hs
  · rename_i q eq
    split at hs
    · rename_i derived stage
      obtain ⟨one, failure, running, ⟨rfl, response, body⟩ | ⟨o, rfl, response, body⟩⟩ :=
        (inv.position eq).calling_of stage
      · cases hs
        exact inv_ends_body inv eq response failure body running (.rejected err) rfl
          ⟨by omega, .inr (by simp)⟩
      · cases hs
        exact inv_ends_failure inv eq response failure body running (.rejected err) rfl
          (by omega) fun _ => .inr one
    · cases hs

theorem Inv.step {a : Action V} (inv : Inv s log) (ok : StepOk s a)
    (hs : Requests.step s a = some (s', ev)) : Inv s' (log ++ ev) := by
  cases a with
  | request r n callable => exact inv_request inv hs
  | cancel r => exact inv_cancel inv ok hs
  | settle n o => exact inv_settle inv hs
  | runJob engine => exact inv_runJob inv ok hs
  | prepared engine r => exact inv_prepared inv ok hs
  | callbackReturns engine r => exact inv_callbackReturns inv hs
  | callbackThrows engine r err => exact inv_callbackThrows inv hs

theorem Position.le_one (position : Position h r q k) : k ≤ 1 := by
  cases position with
  | waiting _ _ _ _ => omega
  | reading _ _ _ _ => omega
  | preparingBody _ _ _ _ _ _ _ _ => omega
  | callingBody _ _ _ _ _ => omega
  | bodyDone o _ _ _ _ _ reported => cases o <;> exact reported.1
  | responded o _ _ _ _ _ reported => cases o <;> exact reported.1
  | preparingError _ _ _ _ _ _ _ => omega
  | callingError _ _ _ _ _ _ => omega
  | settled _ _ _ _ _ _ _ le _ => exact le

theorem Position.settled_once (position : Position h r q k) (settled : h.state (.failure r) ≠ none) :
    q.callable = true → q.aborted = true ∨ k = 1 := by
  cases position with
  | waiting _ failure _ _ => exact absurd failure settled
  | reading _ failure _ _ => exact absurd failure settled
  | preparingBody _ _ _ failure _ _ _ _ => exact absurd failure settled
  | callingBody _ failure _ _ _ => exact absurd failure settled
  | bodyDone _ _ _ failure _ _ _ => exact absurd failure settled
  | responded _ _ _ failure _ _ _ => exact absurd failure settled
  | preparingError _ _ failure _ _ _ _ => exact absurd failure settled
  | callingError _ _ failure _ _ _ => exact absurd failure settled
  | settled _ _ _ _ _ _ _ _ once => exact once

theorem Inv.calledOnce (inv : Inv s log) : CalledOnce s log := by
  refine ⟨fun r => ?_, fun r q eq callable settled notCancelled => ?_, inv.not_after⟩
  · have ok := inv.positions r
    cases eq : s.requests r with
    | none =>
      rw [eq] at ok
      have none := ok.2
      omega
    | some q => exact (inv.position eq).le_one
  · refine ((inv.position eq).settled_once settled callable).resolve_left fun aborted => ?_
    exact notCancelled ((inv.cancelled r).mpr ⟨q, eq, aborted⟩)

/-- In a run whose steps all meet the condition, the callback of every request is called at
most once, exactly once where its chain settles without cancel, and never after cancel. -/
theorem called_once {as : List (Action V)} (run : exec step init as = some (s, log))
    (ok : AllSteps step StepOk init as) : CalledOnce s log :=
  (exec_invariant StepOk (fun _ _ _ _ _ inv ok hs => Inv.step inv ok hs) inv_init ok
    run).calledOnce

/-- `other 5` is the one parsed body, `other 7` the response object, `other 8` the error. -/
def sampleAnswers : Answers Nat :=
  { sampleEngine with
    text := fun _ => .ok 2
    parse := fun v => if v = .string "[]" then .ok (.other 5) else .error (.string "SyntaxError")
    object := fun _ => .other 7
    newError := fun _ => .ok (.other 8) }

/-- Two requests, one answered and one refused; the first is cancelled once it has settled. -/
theorem called_once_run : ∃ s log,
    exec step init [.request 0 0 true, .request 1 1 true, .settle 0 (.fulfilled (.other 4)),
      .settle 1 (.rejected (.string "refused")), .runJob sampleAnswers, .runJob sampleAnswers,
      .runJob sampleAnswers, .runJob sampleAnswers, .prepared sampleAnswers 1,
      .settle 2 (.fulfilled (.string "[]")), .runJob sampleAnswers, .prepared sampleAnswers 0,
      .callbackReturns sampleAnswers 0, .runJob sampleAnswers, .runJob sampleAnswers,
      .cancel 0, .callbackReturns sampleAnswers 1] = some (s, log) ∧
      Settled s 0 ∧ Settled s 1 ∧ invocations 0 log = 1 ∧ CalledOnce s log := by
  obtain ⟨s, log, run, zero, one, count⟩ : ∃ s log,
      exec step init [.request 0 0 true, .request 1 1 true, .settle 0 (.fulfilled (.other 4)),
        .settle 1 (.rejected (.string "refused")), .runJob sampleAnswers, .runJob sampleAnswers,
        .runJob sampleAnswers, .runJob sampleAnswers, .prepared sampleAnswers 1,
        .settle 2 (.fulfilled (.string "[]")), .runJob sampleAnswers, .prepared sampleAnswers 0,
        .callbackReturns sampleAnswers 0, .runJob sampleAnswers, .runJob sampleAnswers,
        .cancel 0, .callbackReturns sampleAnswers 1] = some (s, log) ∧
        Settled s 0 ∧ Settled s 1 ∧ invocations 0 log = 1 :=
    ⟨_, _, rfl, Option.some_ne_none _, Option.some_ne_none _, rfl⟩
  refine ⟨s, log, run, zero, one, count, called_once run ?_⟩
  refine allSteps_cons trivial rfl (allSteps_cons trivial rfl (allSteps_cons trivial rfl
    (allSteps_cons trivial rfl (allSteps_cons ?_ rfl (allSteps_cons ?_ rfl (allSteps_cons ?_ rfl
    (allSteps_cons ?_ rfl (allSteps_cons ?_ rfl (allSteps_cons trivial rfl (allSteps_cons ?_ rfl
    (allSteps_cons ?_ rfl (allSteps_cons trivial rfl (allSteps_cons ?_ rfl (allSteps_cons ?_ rfl
    (allSteps_cons ?_ rfl (allSteps_cons trivial rfl trivial))))))))))))))))
  · intro h k run r q handler eq
    cases run
    cases handler
  · intro h k run r q handler eq
    cases run
  · intro h k run r q handler eq
    cases run
  · intro h k run r q handler eq
    cases run
    cases handler
    cases eq
    exact .inr rfl
  · intro q k i eq stage handler callable
    cases eq
    cases stage
    exact ⟨_, rfl⟩
  · intro h k run r q handler eq
    cases run
    cases handler
  · intro q k i eq stage handler callable
    cases eq
    cases stage
    cases handler
  · intro h k run r q handler eq
    cases run
  · intro h k run r q handler eq
    cases run
  · intro q eq k stage
    cases eq
    cases stage

/-- A callback that throws on the response is called again with its own error; where the
error has no text it is not called at all; and where reading the error's message calls
cancel it is called after that. -/
theorem called_once_fails :
    (∃ s log, exec step init [.request 0 0 true, .settle 0 (.fulfilled (.other 4)),
      .runJob sampleAnswers, .runJob sampleAnswers, .settle 2 (.fulfilled (.string "[]")),
      .runJob sampleAnswers, .prepared sampleAnswers 0,
      .callbackThrows sampleAnswers 0 (.string "oops"), .runJob sampleAnswers,
      .runJob sampleAnswers, .prepared sampleAnswers 0] = some (s, log) ∧
      invocations 0 log = 2 ∧ ¬ CalledOnce s log) ∧
    (∃ s log, exec step init [.request 0 0 true, .settle 0 (.rejected (.other 2)),
      .runJob sampleAnswers, .runJob sampleAnswers, .prepared sampleAnswers 0] = some (s, log) ∧
      Settled s 0 ∧ log = [] ∧ ¬ CalledOnce s log) ∧
    ∃ s log args, exec step init [.request 0 0 true, .settle 0 (.rejected (.other 3)),
      .runJob sampleAnswers, .runJob sampleAnswers, .cancel 0, .prepared sampleAnswers 0] =
        some (s, log) ∧
      log = [.cancelled 0, .invoked 0 args] ∧ ¬ CalledOnce s log := by
  refine ⟨⟨_, _, rfl, rfl, fun once => ?_⟩, ⟨_, _, rfl, Option.some_ne_none _, rfl, fun once => ?_⟩,
    ⟨_, _, _, rfl, rfl, fun once => ?_⟩⟩
  · have two := once.at_most 0
    revert two
    decide
  · have one := once.exactly 0 _ rfl rfl (Option.some_ne_none _) (by simp)
    cases one
  · exact once.not_after [.cancelled 0] _ [] rfl 0 _ rfl (by simp)

end Requests
