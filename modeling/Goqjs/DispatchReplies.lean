import Goqjs.Dispatch

/-!
# One reply to every dispatch

The replies of a call are counted along a run. A call whose handler's result is
a native promise has the two promises of its chain; how far these have come
says how many replies there are. For any other call it is the phase, or whether
the thenable has given its outcome.
-/

namespace Dispatch

open Runs Js

variable {V : Type} {s s' : State V} {log ev : List (Event V)} {engine : Engine V}
  {h h' : Promises.Heap Name (Value V) (Callback V)} {call i n k : Nat} {c c' : Call V}
  {requestId value err : Value V} {e : Event V}

@[simp] theorem replies_nil : replies call ([] : List (Event V)) = [] := rfl

@[simp] theorem replies_append (log ev : List (Event V)) :
    replies call (log ++ ev) = replies call log ++ replies call ev :=
  List.filter_append log ev

@[simp] theorem replies_handlerCalled (handler data : Value V) :
    replies call [.handlerCalled i handler data] = [] := rfl

theorem IsReplyTo.replies_self (reply : IsReplyTo call requestId e) : replies call [e] = [e] := by
  obtain ⟨name, message, text, rfl, _⟩ := reply
  simp [replies]

theorem IsReplyTo.replies_other (reply : IsReplyTo call requestId e) (ne : i ≠ call) :
    replies i [e] = [] := by
  obtain ⟨name, message, text, rfl, _⟩ := reply
  simp [replies, Ne.symm ne]

theorem send_ok {name : String} {message : List (String × Value V)}
    (sent : send engine call name message = .ok e) :
    ∃ text, engine.stringify message = .ok text ∧ e = .sent call name message text := by
  simp only [send, bind, Except.bind, pure, Except.pure] at sent
  split at sent
  · cases sent
  · rename_i text eq
    cases sent
    exact ⟨text, eq, rfl⟩

theorem sendResult_ok (sent : sendResult engine call requestId value = .ok e) :
    (∃ text, engine.stringify (resultMessage requestId value) = .ok text) ∧
      IsReplyTo call requestId e := by
  obtain ⟨text, eq, rfl⟩ := send_ok sent
  exact ⟨⟨text, eq⟩, _, _, text, rfl, .inl rfl, rfl⟩

theorem sendError_ok (sent : sendError engine call requestId err = .ok e) :
    IsReplyTo call requestId e := by
  simp only [sendError, bind, Except.bind] at sent
  split at sent
  · cases sent
  · obtain ⟨text, _, rfl⟩ := send_ok sent
    exact ⟨_, _, text, rfl, .inr rfl, rfl⟩

theorem sendNoHandler_ok {eventName : Value V}
    (sent : sendNoHandler engine call requestId eventName = .ok e) :
    IsReplyTo call requestId e := by
  simp only [sendNoHandler, bind, Except.bind] at sent
  split at sent
  · cases sent
  · obtain ⟨text, _, rfl⟩ := send_ok sent
    exact ⟨_, _, text, rfl, .inr rfl, rfl⟩

theorem Renders.sendError (renders : Renders engine requestId err) (call : Nat) :
    ∃ reply, sendError engine call requestId err = .ok reply := by
  obtain ⟨message, text, rendered, serialised⟩ := renders
  refine ⟨.sent call "dispatchError" (errorMessage requestId message) text, ?_⟩
  simp [Dispatch.sendError, send, rendered, serialised, bind, Except.bind, pure, Except.pure]

/-- The reaction of `result.then(onResult)`. -/
def thenReaction (call : Nat) (requestId : Value V) : Promises.Reaction Name (Callback V) :=
  .handlers (some (.onResult call requestId)) none (.result call)

/-- The reaction of `.catch(onError)`. -/
def catchReaction (call : Nat) (requestId : Value V) : Promises.Reaction Name (Callback V) :=
  .handlers none (some (.onError call requestId)) (.caught call)

/-- The reactions are those of calls that await a native promise. -/
def Own (calls : Nat → Option (Call V)) (p : Name)
    (r : Promises.Reaction Name (Callback V)) : Prop :=
  ∃ i c n, calls i = some c ∧ c.source = .native n ∧
    ((p = .user n ∧ r = thenReaction i c.requestId) ∨
      (p = .result i ∧ r = catchReaction i c.requestId))

/-- The promises of a call that awaits no native promise are not in use. -/
structure Unused (h : Promises.Heap Name (Value V) (Callback V)) (call : Nat) : Prop where
  result : Promises.Fresh h (.result call)
  caught : Promises.Fresh h (.caught call)

/-- The two promises of a call that awaits a native promise. -/
structure Chain (h : Promises.Heap Name (Value V) (Callback V)) (call : Nat) : Prop where
  result : Promises.Derived h (.result call)
  caught : Promises.Derived h (.caught call)
  order : h.state (.result call) = none → h.state (.caught call) = none

/-- The replies the two promises stand for: the then callback returned, or the catch
callback did. -/
def chainReplies (h : Promises.Heap Name (Value V) (Callback V)) (call : Nat) : Nat :=
  match h.state (.result call), h.state (.caught call) with
  | some (.fulfilled _), _ => 1
  | some (.rejected _), some _ => 1
  | _, _ => 0

/-- What the state of a call says about the number `k` of its replies. -/
def CallOk (h : Promises.Heap Name (Value V) (Callback V)) (call : Nat) :
    Option (Call V) → Nat → Prop
  | none, k => Unused h call ∧ k = 0
  | some c, k =>
    match c.source with
    | .synchronous => Unused h call ∧ c.thenHeld = false ∧ c.catchHeld = false ∧
        ((c.phase = .handling ∧ c.given = false ∧ k = 0) ∨ (c.phase = .returned ∧ k = 1))
    | .foreign => Unused h call ∧ c.phase ≠ .handling ∧ k = (if c.given then 1 else 0) ∧
        (c.refused = true → c.thenHeld = false → c.given = true)
    | .native _ => Chain h call ∧ c.phase = .returned ∧ c.thenHeld = false ∧
        c.catchHeld = false ∧ k = chainReplies h call

structure Inv (s : State V) (log : List (Event V)) : Prop where
  wellFormed : Promises.WellFormed s.heap
  registered : Promises.Registered (Own s.calls) s.heap
  notRunning : s.heap.running = []
  counted : ∀ i, CallOk s.heap i (s.calls i) (replies i log).length
  own : ∀ i c, s.calls i = some c → ∀ e ∈ replies i log, IsReplyTo i c.requestId e

theorem inv_init : Inv (init : State V) [] := by
  refine ⟨Promises.wellFormed_empty, Promises.registered_empty, rfl, fun i => ?_, ?_⟩
  · exact ⟨⟨Promises.fresh_empty _, Promises.fresh_empty _⟩, rfl⟩
  · intro i c eq
    cases eq

/-- The count of a call depends on the heap by its own two promises only. -/
theorem CallOk.frame {oc : Option (Call V)} (ok : CallOk h call oc k)
    (result : Promises.Same h h' (.result call)) (caught : Promises.Same h h' (.caught call)) :
    CallOk h' call oc k := by
  have unused : Unused h call → Unused h' call := fun ⟨r, c⟩ => ⟨r.same result, c.same caught⟩
  have chain : Chain h call → Chain h' call := by
    rintro ⟨r, c, order⟩
    refine ⟨r.same result, c.same caught, ?_⟩
    rw [result.state, caught.state]
    exact order
  cases oc with
  | none => exact ⟨unused ok.1, ok.2⟩
  | some c =>
    cases source : c.source <;> simp only [CallOk, source] at ok ⊢
    · exact ⟨unused ok.1, ok.2⟩
    · rw [chainReplies, result.state, caught.state]
      exact ⟨chain ok.1, ok.2⟩
    · exact ⟨unused ok.1, ok.2⟩

/-- The calls before and after a step that gives `call` the record `c'`. -/
theorem own_withCall (kept : ∀ c, s.calls call = some c →
      c'.requestId = c.requestId ∧ ∀ n, c.source = .native n → c'.source = .native n)
    (p : Name) (r : Promises.Reaction Name (Callback V)) (owned : Own s.calls p r) :
    Own (s.withCall call c').calls p r := by
  obtain ⟨i, c, n, eq, source, cases⟩ := owned
  by_cases same : i = call
  · subst same
    obtain ⟨id, native⟩ := kept c eq
    refine ⟨i, c', n, ?_, native n source, ?_⟩
    · simp [State.withCall]
    · rw [id]
      exact cases
  · refine ⟨i, c, n, ?_, source, cases⟩
    simpa [State.withCall, same] using eq

/-- The logged replies of a call after a step whose events are replies to it. -/
theorem Inv.own_append (inv : Inv s log) (id : ∀ c, s.calls call = some c → c.requestId = requestId)
    (new : ∀ e ∈ replies call ev, IsReplyTo call requestId e) :
    ∀ e ∈ replies call (log ++ ev), IsReplyTo call requestId e := by
  intro e mem
  rw [replies_append] at mem
  rcases List.mem_append.mp mem with old | mem
  · cases eq : s.calls call with
    | none =>
      have counted := inv.counted call
      rw [eq] at counted
      rw [List.eq_nil_of_length_eq_zero counted.2] at old
      cases old
    | some c => exact id c eq ▸ inv.own call c eq e old
  · exact new e mem

/-- A step of `call` that leaves the heap as it is. -/
theorem Inv.withCall (inv : Inv s log)
    (kept : ∀ c, s.calls call = some c →
      c'.requestId = c.requestId ∧ ∀ n, c.source = .native n → c'.source = .native n)
    (new : ∀ e ∈ replies call ev, IsReplyTo call c'.requestId e)
    (others : ∀ i, i ≠ call → replies i ev = [])
    (ok : CallOk s.heap call (some c') (replies call (log ++ ev)).length) :
    Inv (s.withCall call c') (log ++ ev) := by
  refine ⟨inv.wellFormed, inv.registered.mono (own_withCall kept), inv.notRunning,
    fun i => ?_, fun i d eq => ?_⟩
  · by_cases same : i = call
    · subst same
      simpa [State.withCall] using ok
    · have old := inv.counted i
      simpa [State.withCall, same, others i same] using old
  · by_cases same : i = call
    · subst same
      simp only [State.withCall, if_true, Option.some.injEq] at eq
      subst eq
      exact inv.own_append (fun c eq => ((kept c eq).1).symm) new
    · simp only [State.withCall, if_neg same] at eq
      intro e mem
      rw [replies_append, others i same, List.append_nil] at mem
      exact inv.own i d eq e mem

theorem Inv.quiet (inv : Inv s log)
    (kept : ∀ c, s.calls call = some c →
      c'.requestId = c.requestId ∧ ∀ n, c.source = .native n → c'.source = .native n)
    (none : ∀ i, replies i ev = [])
    (ok : CallOk s.heap call (some c') (replies call log).length) :
    Inv (s.withCall call c') (log ++ ev) := by
  refine inv.withCall kept (fun e mem => ?_) (fun i _ => none i) ?_
  · rw [none call] at mem
    cases mem
  · rwa [replies_append, none call, List.append_nil]

theorem Inv.reply (inv : Inv s log)
    (kept : ∀ c, s.calls call = some c →
      c'.requestId = c.requestId ∧ ∀ n, c.source = .native n → c'.source = .native n)
    (reply : IsReplyTo call c'.requestId e)
    (ok : CallOk s.heap call (some c') ((replies call log).length + 1)) :
    Inv (s.withCall call c') (log ++ [e]) := by
  refine inv.withCall kept (fun e' mem => ?_) (fun i ne => reply.replies_other ne) ?_
  · rw [reply.replies_self] at mem
    rw [List.mem_singleton.mp mem]
    exact reply
  · rwa [replies_append, reply.replies_self, List.length_append]

theorem kept_of_none (eq : s.calls call = none) : ∀ c, s.calls call = some c →
    c'.requestId = c.requestId ∧ ∀ n, c.source = .native n → c'.source = .native n := by
  intro c eq'
  rw [eq] at eq'
  cases eq'

theorem kept_of_eq (eq : s.calls call = some c) (id : c'.requestId = c.requestId)
    (source : ∀ n, c.source = .native n → c'.source = .native n) :
    ∀ c, s.calls call = some c →
      c'.requestId = c.requestId ∧ ∀ n, c.source = .native n → c'.source = .native n := by
  intro d eq'
  rw [eq] at eq'
  cases eq'
  exact ⟨id, source⟩

theorem Inv.callOk (inv : Inv s log) (eq : s.calls call = some c) :
    CallOk s.heap call (some c) (replies call log).length :=
  eq ▸ inv.counted call

theorem Inv.handling (inv : Inv s log) (eq : s.calls call = some c) (phase : c.phase = .handling) :
    c.source = .synchronous ∧ Unused s.heap call ∧ c.thenHeld = false ∧ c.catchHeld = false ∧
      c.given = false ∧ (replies call log).length = 0 := by
  have ok := inv.callOk eq
  cases source : c.source <;> simp only [CallOk, source, phase] at ok
  · obtain ⟨unused, thenHeld, catchHeld, ⟨_, given, none⟩ | ⟨returned, _⟩⟩ := ok
    · exact ⟨rfl, unused, thenHeld, catchHeld, given, none⟩
    · cases returned
  · cases ok.2.1
  · exact absurd rfl ok.2.1

/-- Only a thenable that is no native promise has the callbacks. -/
theorem Inv.foreign (inv : Inv s log) (eq : s.calls call = some c)
    (held : c.phase = .thenCalled ∨ c.phase = .catchCalled ∨ c.thenHeld = true ∨
      c.catchHeld = true) :
    c.source = .foreign ∧ Unused s.heap call ∧ c.phase ≠ .handling ∧
      (replies call log).length = (if c.given then 1 else 0) ∧
      (c.refused = true → c.thenHeld = false → c.given = true) := by
  have ok := inv.callOk eq
  cases source : c.source <;> simp only [CallOk, source] at ok
  · obtain ⟨_, thenHeld, catchHeld, phase⟩ := ok
    rw [thenHeld, catchHeld] at held
    rcases phase with ⟨phase, _⟩ | ⟨phase, _⟩ <;> simp [phase] at held
  · obtain ⟨_, phase, thenHeld, catchHeld, _⟩ := ok
    rw [phase, thenHeld, catchHeld] at held
    simp at held
  · exact ⟨rfl, ok⟩

theorem inv_outerCatch (inv : Inv s log) (eq : s.calls call = some c)
    (open_ : c.phase = .handling ∨ c.source = .foreign ∧ c.given = false)
    (renders : Renders engine c.requestId err)
    (out : outerCatch s engine call c err = (s', ev)) : Inv s' (log ++ ev) := by
  obtain ⟨reply, sent⟩ := renders.sendError call
  simp only [outerCatch, sent] at out
  cases out
  refine inv.reply (kept_of_eq eq rfl fun n source => source) (sendError_ok sent) ?_
  rcases open_ with phase | ⟨source, given⟩
  · obtain ⟨source, unused, thenHeld, catchHeld, _, none⟩ := inv.handling eq phase
    simp only [CallOk, source, none]
    exact ⟨unused, thenHeld, catchHeld, .inr ⟨trivial, trivial⟩⟩
  · have ok := inv.callOk eq
    simp only [CallOk, source, given] at ok ⊢
    obtain ⟨unused, _, none, _⟩ := ok
    exact ⟨unused, by simp, by simp [none], fun _ _ => trivial⟩

theorem inv_dispatch {eventName data : Value V} (inv : Inv s log)
    (ok : engine.callable (s.eventHandlers eventName) = false →
      ∃ error text, engine.concat "No handler registered for event: " eventName = .ok error ∧
        engine.stringify (errorMessage requestId (.string error)) = .ok text)
    (hs : dispatch s engine call requestId eventName data = some (s', ev)) :
    Inv s' (log ++ ev) := by
  simp only [dispatch] at hs
  split at hs
  · cases hs
  · rename_i eq
    have fresh := inv.counted call
    rw [eq] at fresh
    obtain ⟨unused, none⟩ := fresh
    split at hs
    · cases hs
      refine inv.quiet (kept_of_none eq) (fun i => replies_handlerCalled _ _) ?_
      exact ⟨unused, rfl, rfl, .inl ⟨rfl, rfl, none⟩⟩
    · rename_i notCallable
      obtain ⟨error, text, concat, serialised⟩ := ok (Bool.eq_false_iff.mpr notCallable)
      have sent : sendNoHandler engine call requestId eventName =
          .ok (.sent call "dispatchError" (errorMessage requestId (.string error)) text) := by
        simp [sendNoHandler, send, concat, serialised, bind, Except.bind, pure, Except.pure]
      rw [sent] at hs
      cases hs
      refine inv.reply (kept_of_none eq) (sendNoHandler_ok sent) ?_
      exact ⟨unused, rfl, rfl, .inr ⟨rfl, by omega⟩⟩

theorem tryBody_replied {result : Value V}
    (body : tryBody engine call requestId result = .ok (.replied e)) :
    IsReplyTo call requestId e := by
  have replied : ∀ v, (do return Body.replied (← sendResult engine call requestId v)) =
      (Except.ok (.replied e) : Except (Value V) (Body V)) → IsReplyTo call requestId e := by
    intro v eq
    simp only [bind, Except.bind, pure, Except.pure] at eq
    split at eq
    · cases eq
    · rename_i sent
      cases eq
      exact (sendResult_ok sent).2
  simp only [tryBody] at body
  split at body
  · cases body
  · split at body
    · simp only [bind, Except.bind, pure, Except.pure] at body
      split at body
      · cases body
      · split at body
        · split at body
          · cases body
          · split at body <;> cases body
        · exact replied _ body
    · exact replied _ body

theorem awaitPromise_eq (h : Promises.Heap Name (Value V) (Callback V)) (n call : Nat)
    (requestId : Value V) :
    awaitPromise h n call requestId =
      Promises.register (Promises.register h (.user n) (thenReaction call requestId))
        (.result call) (catchReaction call requestId) := rfl

theorem awaitPromise_state (h : Promises.Heap Name (Value V) (Callback V)) (n call : Nat)
    (requestId : Value V) : (awaitPromise h n call requestId).state = h.state := by
  rw [awaitPromise_eq, Promises.state_register, Promises.state_register]

theorem same_awaitPromise (h : Promises.Heap Name (Value V) (Callback V)) (n call : Nat)
    (requestId : Value V) {p : Name} (result : .result call ≠ p) (caught : .caught call ≠ p) :
    Promises.Same h (awaitPromise h n call requestId) p :=
  (Promises.same_register (r := thenReaction call requestId) result _).trans
    (Promises.same_register (r := catchReaction call requestId) caught _)

/-- `result.then(onResult).catch(onError)` starts a chain without replies. -/
theorem chain_awaitPromise (wf : Promises.WellFormed h) (unused : Unused h call) (n : Nat)
    (requestId : Value V) :
    Promises.WellFormed (awaitPromise h n call requestId) ∧
      Chain (awaitPromise h n call requestId) call ∧
      chainReplies (awaitPromise h n call requestId) call = 0 := by
  have first : (thenReaction call requestId).target ≠ .caught call := by
    simp [thenReaction, Promises.Reaction.target]
  have second : (catchReaction call requestId).target ≠ .result call := by
    simp [catchReaction, Promises.Reaction.target]
  have wf₁ := Promises.wellFormed_register (r := thenReaction call requestId) wf unused.result
    (.user n)
  have caught₁ := unused.caught.register first (.user n)
  refine ⟨?_, ⟨?_, ?_, fun _ => ?_⟩, ?_⟩
  · exact Promises.wellFormed_register (r := catchReaction call requestId) wf₁ caught₁ _
  · exact (Promises.derived_register (r := thenReaction call requestId) unused.result
      (.user n)).register second _
  · exact Promises.derived_register (r := catchReaction call requestId) caught₁ _
  · rw [awaitPromise_state]
    exact unused.caught.1
  · rw [chainReplies, awaitPromise_state, unused.result.1, unused.caught.1]

theorem inv_awaits (inv : Inv s log) (eq : s.calls call = some c) (phase : c.phase = .handling)
    (n : Nat) :
    Inv { s.withCall call { c with phase := .returned, source := .native n } with
          heap := awaitPromise s.heap n call c.requestId } log := by
  obtain ⟨source, unused, thenHeld, catchHeld, _, none⟩ := inv.handling eq phase
  obtain ⟨wf, chain, noReplies⟩ := chain_awaitPromise inv.wellFormed unused n c.requestId
  have registered : Promises.Registered
      (Own (s.withCall call { c with phase := .returned, source := .native n }).calls) s.heap :=
    inv.registered.mono (own_withCall (kept_of_eq eq rfl (by simp [source])))
  refine ⟨wf, ?_, ?_, fun i => ?_, fun i d eq' => ?_⟩
  · rw [awaitPromise_eq]
    refine Promises.registered_register (Promises.registered_register registered ?_) ?_
    · exact ⟨call, _, n, if_pos rfl, rfl, .inl ⟨rfl, rfl⟩⟩
    · exact ⟨call, _, n, if_pos rfl, rfl, .inr ⟨rfl, rfl⟩⟩
  · rw [awaitPromise_eq, Promises.running_register, Promises.running_register]
    exact inv.notRunning
  · by_cases same : i = call
    · subst same
      simp only [State.withCall, if_true, CallOk]
      exact ⟨chain, trivial, thenHeld, catchHeld, none.trans noReplies.symm⟩
    · simp only [State.withCall, if_neg same]
      refine (inv.counted i).frame ?_ ?_
      · exact same_awaitPromise _ _ _ _ (by simp [Ne.symm same]) (by simp)
      · exact same_awaitPromise _ _ _ _ (by simp) (by simp [Ne.symm same])
  · by_cases same : i = call
    · subst same
      rw [List.eq_nil_of_length_eq_zero none]
      simp
    · simp only [State.withCall, if_neg same] at eq'
      exact inv.own i d eq'

theorem inv_handlerReturns {result : Value V} (inv : Inv s log)
    (ok : ∀ c, s.calls call = some c → ∀ err, tryBody engine call c.requestId result = .error err →
      Renders engine c.requestId err)
    (hs : handlerReturns s engine call result = some (s', ev)) : Inv s' (log ++ ev) := by
  simp only [handlerReturns] at hs
  split at hs
  · cases hs
  · rename_i c eq
    split at hs
    · rename_i phase
      obtain ⟨source, unused, thenHeld, catchHeld, given, none⟩ := inv.handling eq phase
      have id : ∀ n, c.source = .native n → Source.foreign = .native n := by simp [source]
      split at hs
      · rename_i reply body
        cases hs
        refine inv.reply (kept_of_eq eq rfl fun n source => source) (tryBody_replied body) ?_
        simp only [CallOk, source, none]
        exact ⟨unused, thenHeld, catchHeld, .inr ⟨trivial, trivial⟩⟩
      · rename_i n body
        cases hs
        rw [List.append_nil]
        exact inv_awaits inv eq phase n
      · cases hs
        refine inv.quiet (kept_of_eq eq rfl id) (fun i => rfl) ?_
        simp only [CallOk, given, none]
        exact ⟨unused, by simp, by simp, by simp⟩
      · rename_i err body
        exact inv_outerCatch inv eq (.inl phase) (ok c eq err body) (Option.some.inj hs)
    · cases hs

theorem inv_handlerThrows (inv : Inv s log)
    (ok : ∀ c, s.calls call = some c → Renders engine c.requestId err)
    (hs : handlerThrows s engine call err = some (s', ev)) : Inv s' (log ++ ev) := by
  simp only [handlerThrows] at hs
  split at hs
  · cases hs
  · rename_i c eq
    split at hs
    · rename_i phase
      exact inv_outerCatch inv eq (.inl phase) (ok c eq) (Option.some.inj hs)
    · cases hs

theorem inv_thenReturns {x : Value V} (inv : Inv s log)
    (ok : ∀ c, s.calls call = some c → ∀ err, callCatch engine x = .error err →
      c.given = false ∧ Renders engine c.requestId err)
    (hs : thenReturns s engine call x = some (s', ev)) : Inv s' (log ++ ev) := by
  simp only [thenReturns] at hs
  split at hs
  · cases hs
  · rename_i c eq
    split at hs
    · rename_i phase
      obtain ⟨source, unused, _, count, kept⟩ := inv.foreign eq (.inl phase)
      split at hs
      · cases hs
        refine inv.quiet (kept_of_eq eq rfl fun n source => source) (fun i => rfl) ?_
        simp only [CallOk, source]
        exact ⟨unused, by simp, count, kept⟩
      · rename_i err body
        obtain ⟨given, renders⟩ := ok c eq err body
        exact inv_outerCatch inv eq (.inr ⟨source, given⟩) renders (Option.some.inj hs)
    · cases hs

theorem inv_thenableThrows (inv : Inv s log)
    (ok : ∀ c, s.calls call = some c → c.given = false ∧ Renders engine c.requestId err)
    (hs : thenableThrows s engine call err = some (s', ev)) : Inv s' (log ++ ev) := by
  simp only [thenableThrows] at hs
  split at hs
  · cases hs
  · rename_i c eq
    split at hs
    · rename_i phase
      have source := (inv.foreign eq (by tauto)).1
      exact inv_outerCatch inv eq (.inr ⟨source, (ok c eq).1⟩) (ok c eq).2 (Option.some.inj hs)
    · cases hs

theorem inv_catchReturns (inv : Inv s log) (hs : catchReturns s call = some (s', ev)) :
    Inv s' (log ++ ev) := by
  simp only [catchReturns] at hs
  split at hs
  · cases hs
  · rename_i c eq
    split at hs
    · rename_i phase
      obtain ⟨source, unused, _, count, kept⟩ := inv.foreign eq (.inr (.inl phase))
      cases hs
      refine inv.quiet (kept_of_eq eq rfl fun n source => source) (fun i => rfl) ?_
      simp only [CallOk, source]
      exact ⟨unused, by simp, count, kept⟩
    · cases hs

theorem inv_thenCallback (inv : Inv s log)
    (ok : ∀ c, s.calls call = some c → c.given = true →
      ∀ text, engine.stringify (resultMessage c.requestId value) ≠ .ok text)
    (hs : thenCallback s engine call value = some (s', ev)) : Inv s' (log ++ ev) := by
  simp only [thenCallback] at hs
  split at hs
  · cases hs
  · rename_i c eq
    split at hs
    · rename_i held
      obtain ⟨source, unused, phase, count, kept⟩ := inv.foreign eq (.inr (.inr (.inl held)))
      split at hs
      · rename_i reply sent
        cases hs
        obtain ⟨⟨text, serialised⟩, isReply⟩ := sendResult_ok sent
        have given : c.given = false :=
          Bool.eq_false_iff.mpr fun given => ok c eq given text serialised
        refine inv.reply (kept_of_eq eq rfl fun n source => source) isReply ?_
        simp only [CallOk, source]
        exact ⟨unused, phase, by simp [count, given], by simp⟩
      · cases hs
        refine inv.quiet (kept_of_eq eq rfl fun n source => source) (fun i => rfl) ?_
        simp only [CallOk, source]
        exact ⟨unused, phase, count, fun _ released => by simp [held] at released⟩
    · cases hs

theorem inv_catchCallback (inv : Inv s log)
    (ok : ∀ c, s.calls call = some c → c.given = false ∧ Renders engine c.requestId err)
    (hs : catchCallback s engine call err = some (s', ev)) : Inv s' (log ++ ev) := by
  simp only [catchCallback] at hs
  split at hs
  · cases hs
  · rename_i c eq
    split at hs
    · rename_i held
      obtain ⟨source, unused, phase, count, kept⟩ := inv.foreign eq (.inr (.inr (.inr held)))
      obtain ⟨given, renders⟩ := ok c eq
      obtain ⟨reply, sent⟩ := renders.sendError call
      rw [sent] at hs
      cases hs
      refine inv.reply (kept_of_eq eq rfl fun n source => source) (sendError_ok sent) ?_
      simp only [CallOk, source]
      exact ⟨unused, phase, by simp [count, given], by simp⟩
    · cases hs

theorem inv_release (inv : Inv s log)
    (ok : ∀ c, s.calls call = some c → c.refused = true → c.given = true)
    (hs : release s call = some (s', ev)) : Inv s' (log ++ ev) := by
  simp only [release] at hs
  split at hs
  · cases hs
  · rename_i c eq
    split at hs
    · cases hs
      refine inv.quiet (kept_of_eq eq rfl fun n source => source) (fun i => rfl) ?_
      have counted := inv.callOk eq
      cases source : c.source <;> simp only [CallOk, source] at counted ⊢
      · exact ⟨counted.1, trivial, trivial, counted.2.2.2⟩
      · exact ⟨counted.1, counted.2.1, trivial, trivial, counted.2.2.2.2⟩
      · exact ⟨counted.1, counted.2.1, counted.2.2.1, fun refused _ => ok c eq refused⟩
    · cases hs

theorem Own.target_ne_user {calls : Nat → Option (Call V)} {p : Name}
    {r : Promises.Reaction Name (Callback V)} (own : Own calls p r) (n : Nat) :
    r.target ≠ .user n := by
  obtain ⟨i, c, m, _, _, ⟨_, rfl⟩ | ⟨_, rfl⟩⟩ := own
  · simp [thenReaction, Promises.Reaction.target]
  · simp [catchReaction, Promises.Reaction.target]

theorem inv_settle {o : Promises.Outcome (Value V)} (inv : Inv s log)
    (hs : settle s n o = some (s', ev)) : Inv s' (log ++ ev) := by
  simp only [settle] at hs
  split at hs <;> cases hs
  have free : Promises.owed s.heap (.user n) = 0 :=
    inv.registered.free (fun _ _ own => own.target_ne_user n) (by simp [inv.notRunning])
  refine ⟨Promises.wellFormed_settle inv.wellFormed free o,
    Promises.registered_settle inv.registered _ o, ?_, fun i => ?_, fun i c eq => ?_⟩
  · rw [Promises.running_settle]
    exact inv.notRunning
  · rw [List.append_nil]
    exact (inv.counted i).frame (Promises.same_settle (by simp) o)
      (Promises.same_settle (by simp) o)
  · rw [List.append_nil]
    exact inv.own i c eq

/-- What a job does to the chain it belongs to: which promise is settled, how, and the reply. -/
inductive Progress (h : Promises.Heap Name (Value V) (Callback V)) (call : Nat)
    (requestId : Value V) : Name → Promises.Outcome (Value V) → List (Event V) → Prop where
  | rejected (e : Value V) : h.state (.result call) = none →
      Progress h call requestId (.result call) (.rejected e) []
  | replied (v : Value V) (reply : Event V) : h.state (.result call) = none →
      IsReplyTo call requestId reply →
      Progress h call requestId (.result call) (.fulfilled v) [reply]
  | skipped (v w : Value V) : h.state (.result call) = some (.fulfilled v) →
      h.state (.caught call) = none →
      Progress h call requestId (.caught call) (.fulfilled w) []
  | reported (e w : Value V) (reply : Event V) : h.state (.result call) = some (.rejected e) →
      h.state (.caught call) = none → IsReplyTo call requestId reply →
      Progress h call requestId (.caught call) (.fulfilled w) [reply]

theorem Progress.target {p : Name} {o : Promises.Outcome (Value V)}
    (progress : Progress h call requestId p o ev) : p = .result call ∨ p = .caught call := by
  cases progress with
  | rejected _ _ => exact .inl rfl
  | replied _ _ _ _ => exact .inl rfl
  | skipped _ _ _ _ => exact .inr rfl
  | reported _ _ _ _ _ _ => exact .inr rfl

theorem Progress.replies {p : Name} {o : Promises.Outcome (Value V)}
    (progress : Progress h call requestId p o ev) :
    (∀ i, i ≠ call → replies i ev = []) ∧
      ∀ e ∈ Dispatch.replies call ev, IsReplyTo call requestId e := by
  have one : ∀ reply, IsReplyTo call requestId reply →
      (∀ i, i ≠ call → Dispatch.replies i [reply] = []) ∧
        ∀ e ∈ Dispatch.replies call [reply], IsReplyTo call requestId e := by
    intro reply isReply
    refine ⟨fun i ne => isReply.replies_other ne, fun e mem => ?_⟩
    rw [isReply.replies_self] at mem
    exact List.mem_singleton.mp mem ▸ isReply
  cases progress with
  | rejected _ _ => exact ⟨fun _ _ => rfl, fun _ mem => by cases mem⟩
  | replied _ reply _ isReply => exact one reply isReply
  | skipped _ _ _ _ => exact ⟨fun _ _ => rfl, fun _ mem => by cases mem⟩
  | reported _ _ reply _ _ isReply => exact one reply isReply

/-- A job keeps what its chain says about the replies. -/
theorem CallOk.progress {p : Name} {o : Promises.Outcome (Value V)}
    (source : c.source = .native n) (ok : CallOk h call (some c) k)
    (progress : Progress h call requestId p o ev) (keeps : Promises.Keeps h h')
    (state : ∀ q, h'.state q = if q = p then some o else h.state q) :
    CallOk h' call (some c) (k + (replies call ev).length) := by
  simp only [CallOk, source] at ok ⊢
  obtain ⟨chain, phase, thenHeld, catchHeld, count⟩ := ok
  have result := state (.result call)
  have caught := state (.caught call)
  refine ⟨⟨chain.result.keeps keeps, chain.caught.keeps keeps, ?_⟩, phase, thenHeld, catchHeld, ?_⟩
  · intro pending
    cases progress with
    | rejected e _ => simp [pending] at result
    | replied v reply _ _ => simp [pending] at result
    | skipped v w settled _ => simp [pending, settled] at result
    | reported e w reply settled _ _ => simp [pending, settled] at result
  · rw [count]
    cases progress with
    | rejected e before =>
      simp [chainReplies, before, result, caught, chain.order before]
    | replied v reply before isReply =>
      simp [chainReplies, before, result, isReply.replies_self]
    | skipped v w settled before =>
      simp [chainReplies, settled, result]
    | reported e w reply settled before isReply =>
      simp [chainReplies, settled, before, result, caught, isReply.replies_self]

/-- A job without a callback passes an outcome on along a chain. -/
theorem passedOn_progress (inv : Inv s log)
    (run : Promises.runJob s.heap = some (h, none)) :
    h.state = s.heap.state ∨ ∃ i c n p o, s.calls i = some c ∧ c.source = .native n ∧
      Progress s.heap i c.requestId p o [] ∧
      ∀ q, h.state q = if q = p then some o else s.heap.state q := by
  rcases Promises.passed_on_registered inv.wellFormed inv.registered run with
    same | ⟨p, r, o, own, settled, handler, ⟨pending, _, _⟩, state⟩
  · exact .inl same
  · obtain ⟨i, c, n, eq, source, ⟨rfl, rfl⟩ | ⟨rfl, rfl⟩⟩ := own
    · cases o with
      | fulfilled v => cases handler
      | rejected e => exact .inr ⟨i, c, n, _, _, eq, source, .rejected e pending, state⟩
    · cases o with
      | fulfilled v => exact .inr ⟨i, c, n, _, _, eq, source, .skipped v v settled pending, state⟩
      | rejected e => cases handler

/-- How a callback ends and what it has sent. -/
theorem callback_progress (inv : Inv s log)
    {k : Promises.Invocation Name (Value V) (Callback V)}
    (run : Promises.runJob s.heap = some (h, some k))
    (ok : ∀ call requestId, k.handler = .onError call requestId →
      Renders engine requestId k.argument) :
    ∃ i c n, s.calls i = some c ∧ c.source = .native n ∧
      (∀ reply, k.handler.run engine k.argument = .ok reply →
        Progress s.heap i c.requestId k.derived (.fulfilled .undefined) [reply]) ∧
      ∀ err, k.handler.run engine k.argument = .error err →
        Progress s.heap i c.requestId k.derived (.rejected err) [] := by
  obtain ⟨handler, argument, derived⟩ := k
  obtain ⟨p, r, o, own, settled, selected, rfl, rfl, ⟨pending, _, _⟩, same⟩ :=
    Promises.invocation_registered inv.wellFormed inv.registered run
  obtain ⟨i, c, n, eq, source, ⟨rfl, rfl⟩ | ⟨rfl, rfl⟩⟩ := own
  · cases o with
    | rejected e => cases selected
    | fulfilled v =>
      cases selected
      refine ⟨i, c, n, eq, source, fun reply sent => ?_, fun err _ => .rejected err pending⟩
      exact .replied .undefined reply pending (sendResult_ok sent).2
  · cases o with
    | fulfilled v => cases selected
    | rejected e =>
      cases selected
      obtain ⟨reply, sent⟩ := (ok i c.requestId rfl).sendError i
      refine ⟨i, c, n, eq, source, fun reply' sent' => ?_, fun err failed => ?_⟩
      · exact .reported e .undefined reply' settled pending (sendError_ok sent')
      · cases sent.symm.trans failed

/-- The heap once a callback that a job has started has ended. -/
theorem finish_started (inv : Inv s log) {j : Promises.Invocation Name (Value V) (Callback V)}
    (run : Promises.runJob s.heap = some (h, some j)) (self : Value V)
    (o : Promises.Outcome (Value V)) (after : h' = Promises.finish h self j.derived o.result) :
    Promises.WellFormed h' ∧ Promises.Registered (Own s.calls) h' ∧ h'.running = [] ∧
      Promises.Keeps s.heap h' ∧
      ∀ q, h'.state q = if q = j.derived then some o else s.heap.state q := by
  subst after
  obtain ⟨wf, keeps⟩ := Promises.runJob_spec inv.wellFormed run
  obtain ⟨_, _, _, _, _, _, _, derived, due, same⟩ :=
    Promises.invocation_registered inv.wellFormed inv.registered run
  have running : h.running = [j.derived] := by
    rw [Promises.running_runJob run, inv.notRunning]
    rfl
  have mem : j.derived ∈ h.running := by simp [running]
  have pending : h.state j.derived = none := by
    rw [same, derived]
    exact due.pending
  obtain ⟨wf', keeps'⟩ := Promises.finish_spec wf mem self o.result
  refine ⟨wf', ?_, by simp [running], keeps.trans keeps', fun q => ?_⟩
  · exact Promises.registered_finish (Promises.registered_runJob inv.registered run) self o.result
      fun q promise => by cases o <;> cases promise
  · rw [Promises.finish_outcome_state pending, same]

/-- What the next job does: nothing to any state, or one step of some call's chain. -/
theorem runJob_progress (inv : Inv s log)
    (ok : ∀ h k, Promises.runJob s.heap = some (h, some k) → ∀ call requestId,
      k.handler = .onError call requestId → Renders engine requestId k.argument)
    (hs : runJob s engine = some (s', ev)) :
    s'.calls = s.calls ∧ Promises.WellFormed s'.heap ∧ Promises.Registered (Own s.calls) s'.heap ∧
      s'.heap.running = [] ∧ Promises.Keeps s.heap s'.heap ∧
      ((s'.heap.state = s.heap.state ∧ ev = []) ∨
        ∃ i c n p o, s.calls i = some c ∧ c.source = .native n ∧
          Progress s.heap i c.requestId p o ev ∧
          ∀ q, s'.heap.state q = if q = p then some o else s.heap.state q) := by
  simp only [runJob] at hs
  split at hs
  · cases hs
  · rename_i h run
    cases hs
    obtain ⟨wf, keeps⟩ := Promises.runJob_spec inv.wellFormed run
    refine ⟨rfl, wf, Promises.registered_runJob inv.registered run,
      (Promises.running_runJob run).trans inv.notRunning, keeps, ?_⟩
    exact (passedOn_progress inv run).imp_left fun same => ⟨same, rfl⟩
  · rename_i h k run
    obtain ⟨i, c, n, eq, source, replied, threw⟩ := callback_progress inv run (ok h k run)
    split at hs
    · rename_i reply sent
      cases hs
      obtain ⟨wf, registered, idle, keeps, state⟩ :=
        finish_started inv run engine.typeError (.fulfilled .undefined) rfl
      exact ⟨rfl, wf, registered, idle, keeps,
        .inr ⟨i, c, n, _, _, eq, source, replied reply sent, state⟩⟩
    · rename_i err failed
      cases hs
      obtain ⟨wf, registered, idle, keeps, state⟩ :=
        finish_started inv run engine.typeError (.rejected err) rfl
      exact ⟨rfl, wf, registered, idle, keeps,
        .inr ⟨i, c, n, _, _, eq, source, threw err failed, state⟩⟩

theorem inv_runJob (inv : Inv s log)
    (ok : ∀ h k, Promises.runJob s.heap = some (h, some k) → ∀ call requestId,
      k.handler = .onError call requestId → Renders engine requestId k.argument)
    (hs : runJob s engine = some (s', ev)) : Inv s' (log ++ ev) := by
  obtain ⟨calls, wf, registered, notRunning, keeps, moved⟩ := runJob_progress inv ok hs
  have frame : ∀ i, (∀ q, q = .result i ∨ q = .caught i → s'.heap.state q = s.heap.state q) →
      CallOk s'.heap i (s.calls i) (replies i log).length := by
    intro i same
    have kept : ∀ q, s'.heap.state q = s.heap.state q → Promises.Same s.heap s'.heap q :=
      fun q state => ⟨state, keeps.owed_of_state inv.wellFormed wf state,
        by rw [notRunning, inv.notRunning]⟩
    exact (inv.counted i).frame (kept _ (same _ (.inl rfl))) (kept _ (same _ (.inr rfl)))
  rcases moved with ⟨same, rfl⟩ | ⟨j, c, n, p, o, eq, source, progress, state⟩
  · rw [List.append_nil]
    exact ⟨wf, calls ▸ registered, notRunning,
      fun i => calls ▸ frame i fun q _ => congrFun same q, fun i d eq => inv.own i d (calls ▸ eq)⟩
  · obtain ⟨others, new⟩ := progress.replies
    refine ⟨wf, calls ▸ registered, notRunning, fun i => ?_, fun i d eq' => ?_⟩
    · rw [calls, replies_append, List.length_append]
      by_cases same : i = j
      · subst same
        rw [eq]
        exact (inv.callOk eq).progress source progress keeps state
      · rw [others i same]
        refine frame i fun q names => ?_
        rw [state q, if_neg]
        rcases progress.target with rfl | rfl <;> rcases names with rfl | rfl <;> simp [same]
    · rw [calls] at eq'
      by_cases same : i = j
      · subst same
        rw [eq] at eq'
        cases eq'
        refine inv.own_append (fun d eq' => ?_) new
        rw [eq] at eq'
        cases eq'
        rfl
      · rw [replies_append, others i same, List.append_nil]
        exact inv.own i d eq'

theorem Inv.step [DecidableEq V] {a : Action V} (inv : Inv s log) (ok : StepOk s a)
    (hs : Dispatch.step s a = some (s', ev)) : Inv s' (log ++ ev) := by
  cases a with
  | on eventName handler =>
    cases hs
    rw [List.append_nil]
    exact ⟨inv.wellFormed, inv.registered, inv.notRunning, inv.counted, inv.own⟩
  | dispatch engine call requestId eventName data => exact inv_dispatch inv ok hs
  | handlerReturns engine call result => exact inv_handlerReturns inv ok hs
  | handlerThrows engine call err => exact inv_handlerThrows inv ok hs
  | thenReturns engine call x => exact inv_thenReturns inv ok hs
  | thenableThrows engine call err => exact inv_thenableThrows inv ok hs
  | catchReturns call => exact inv_catchReturns inv hs
  | thenCallback engine call value => exact inv_thenCallback inv ok hs
  | catchCallback engine call err => exact inv_catchCallback inv ok hs
  | release call => exact inv_release inv ok hs
  | settle n o => exact inv_settle inv hs
  | runJob engine => exact inv_runJob inv ok hs

theorem chainReplies_le (h : Promises.Heap Name (Value V) (Callback V)) (call : Nat) :
    chainReplies h call ≤ 1 := by
  simp only [chainReplies]
  split <;> omega

/-- Once the awaited promise has settled and no job of the call is due, both promises of its
chain are settled: a pending one would wait for another pending one. -/
theorem Inv.chain_settled (inv : Inv s log) (eq : s.calls call = some c)
    (source : c.source = .native n) (chain : Chain s.heap call)
    (settled : s.heap.state (.user n) ≠ none)
    (notDue : ∀ j ∈ s.heap.jobs, j.target ≠ .result call ∧ j.target ≠ .caught call) :
    s.heap.state (.result call) ≠ none ∧ s.heap.state (.caught call) ≠ none := by
  have result : s.heap.state (.result call) ≠ none := by
    intro pending
    obtain ⟨q, r, ⟨i, d, m, eq', source', ⟨rfl, rfl⟩ | ⟨rfl, rfl⟩⟩, target, waiting⟩ :=
      Promises.waits inv.wellFormed inv.registered chain.result pending
        (fun j mem => (notDue j mem).1) (by simp [inv.notRunning])
    · cases target
      rw [eq] at eq'
      cases eq'
      rw [source] at source'
      cases source'
      exact settled waiting
    · cases target
  refine ⟨result, fun pending => ?_⟩
  obtain ⟨q, r, ⟨i, d, m, _, _, ⟨rfl, rfl⟩ | ⟨rfl, rfl⟩⟩, target, waiting⟩ :=
    Promises.waits inv.wellFormed inv.registered chain.caught pending
      (fun j mem => (notDue j mem).2) (by simp [inv.notRunning])
  · cases target
  · cases target
    exact result waiting

theorem chainReplies_of_settled (result : h.state (.result call) ≠ none)
    (caught : h.state (.caught call) ≠ none) : chainReplies h call = 1 := by
  obtain ⟨o, result⟩ := Option.ne_none_iff_exists'.mp result
  obtain ⟨o', caught⟩ := Option.ne_none_iff_exists'.mp caught
  cases o <;> simp [chainReplies, result, caught]

theorem Inv.repliedOnce (inv : Inv s log) : RepliedOnce s log := by
  intro call c eq
  refine ⟨?_, fun known => ?_, inv.own call c eq⟩
  · have ok := inv.callOk eq
    cases source : c.source <;> simp only [CallOk, source] at ok
    · rcases ok.2.2.2 with ⟨_, _, none⟩ | ⟨_, one⟩ <;> omega
    · rw [ok.2.2.2.2]
      exact chainReplies_le _ _
    · rw [ok.2.2.1]
      split <;> omega
  · have ok := inv.callOk eq
    cases source : c.source <;> simp only [CallOk, Known, source] at ok known
    · rcases ok.2.2.2 with ⟨handling, _⟩ | ⟨_, one⟩
      · rw [known] at handling
        cases handling
      · exact one
    · obtain ⟨result, caught⟩ := inv.chain_settled eq source ok.1 known.1 known.2
      rw [ok.2.2.2.2, chainReplies_of_settled result caught]
    · obtain ⟨_, _, count, kept⟩ := ok
      have given : c.given = true := known.elim id fun ⟨refused, released⟩ => kept refused released
      rw [count, if_pos given]

/-- In a run whose steps all keep to one reply, every call is replied to exactly once when
its outcome is known, and never twice. -/
theorem replied_once [DecidableEq V] {as : List (Action V)}
    (run : exec step init as = some (s, log)) (ok : AllSteps step StepOk init as) :
    RepliedOnce s log :=
  (exec_invariant StepOk (fun _ _ _ _ _ inv ok hs => Inv.step inv ok hs) inv_init ok
    run).repliedOnce

/-- Two calls whose promises settle in the other order, one of them rejected. -/
theorem replied_once_run : ∃ s log,
    exec step init [.on (.string "musicUrl") (.other 0),
      .dispatch sampleEngine 0 (.string "r0") (.string "musicUrl") .undefined,
      .handlerReturns sampleEngine 0 (.promise 0),
      .dispatch sampleEngine 1 (.string "r1") (.string "musicUrl") .undefined,
      .handlerReturns sampleEngine 1 (.promise 1),
      .settle 1 (.rejected (.string "no")), .settle 0 (.fulfilled (.string "url")),
      .runJob sampleEngine, .runJob sampleEngine, .runJob sampleEngine, .runJob sampleEngine] =
        some (s, log) ∧
      (replies 0 log).length = 1 ∧ (replies 1 log).length = 1 ∧ RepliedOnce s log := by
  have dispatched : ∀ (s : State Nat) (call : Nat) (id : Value Nat),
      StepOk s (.dispatch sampleEngine call id (.string "musicUrl") .undefined) :=
    fun _ _ _ _ => ⟨_, _, rfl, rfl⟩
  have awaited : ∀ (s : State Nat) (call n : Nat),
      StepOk s (.handlerReturns sampleEngine call (.promise n)) := by
    intro s call n c _ err body
    cases body
  obtain ⟨s, log, run, zero, one⟩ : ∃ s log,
      exec step init [.on (.string "musicUrl") (.other 0),
        .dispatch sampleEngine 0 (.string "r0") (.string "musicUrl") .undefined,
        .handlerReturns sampleEngine 0 (.promise 0),
        .dispatch sampleEngine 1 (.string "r1") (.string "musicUrl") .undefined,
        .handlerReturns sampleEngine 1 (.promise 1),
        .settle 1 (.rejected (.string "no")), .settle 0 (.fulfilled (.string "url")),
        .runJob sampleEngine, .runJob sampleEngine, .runJob sampleEngine,
        .runJob sampleEngine] = some (s, log) ∧
      (replies 0 log).length = 1 ∧ (replies 1 log).length = 1 := ⟨_, _, rfl, rfl, rfl⟩
  refine ⟨s, log, run, zero, one, replied_once run ?_⟩
  refine allSteps_cons trivial rfl (allSteps_cons (dispatched _ _ _) rfl
    (allSteps_cons (awaited _ _ _) rfl (allSteps_cons (dispatched _ _ _) rfl
    (allSteps_cons (awaited _ _ _) rfl (allSteps_cons trivial rfl (allSteps_cons trivial rfl
    (allSteps_cons ?_ rfl (allSteps_cons ?_ rfl (allSteps_cons ?_ rfl (allSteps_cons ?_ rfl
    trivial))))))))))
  · intro h k run call id handler
    cases run
  · intro h k run call id handler
    cases run
    cases handler
  · intro h k run call id handler
    cases run
    cases handler
    exact ⟨_, _, rfl, rfl⟩
  · intro h k run call id handler
    cases run

/-- A thenable that calls back at once and whose `then` returns nothing is replied to twice;
a rejection that has no text is not replied to. -/
theorem replied_once_fails :
    (∃ s log, exec step init [.on (.string "musicUrl") (.other 0),
      .dispatch sampleEngine 0 (.string "r0") (.string "musicUrl") .undefined,
      .handlerReturns sampleEngine 0 (.other 1), .thenCallback sampleEngine 0 (.string "url"),
      .thenReturns sampleEngine 0 .undefined] = some (s, log) ∧
      (replies 0 log).length = 2 ∧ ¬ RepliedOnce s log) ∧
    ∃ s log c, exec step init [.on (.string "musicUrl") (.other 0),
      .dispatch sampleEngine 0 (.string "r0") (.string "musicUrl") .undefined,
      .handlerReturns sampleEngine 0 (.promise 0), .settle 0 (.rejected (.other 2)),
      .runJob sampleEngine, .runJob sampleEngine] = some (s, log) ∧
      s.calls 0 = some c ∧ Known s 0 c ∧ replies 0 log = [] ∧ ¬ RepliedOnce s log := by
  refine ⟨⟨_, _, rfl, rfl, fun once => ?_⟩, ⟨_, _, _, rfl, rfl, ?_, rfl, fun once => ?_⟩⟩
  · have two := (once 0 _ rfl).1
    revert two
    decide
  · exact ⟨fun none => (nomatch none), fun j mem => (nomatch mem)⟩
  · have one := (once 0 _ rfl).2.1 ⟨fun none => (nomatch none), fun j mem => (nomatch mem)⟩
    revert one
    decide

end Dispatch
