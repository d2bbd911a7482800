import Goqjs.Bindings

/-!
# What a call leaves behind

Most Go functions read their arguments first and then do their work, throw an error of
their own or return. A conversion that throws while they read is not noticed: its
exception stays pending, whatever they do next, until user code that a later
conversion runs throws and catches, or leaves another behind.
-/

namespace Qjs

/-- The operations that convert an argument; `ToByteArray` only tests for bytes. -/
def Op.converts {O : Type} : Op O → Bool
  | .toByteArray _ => false
  | _ => true

section

variable {E : Engine} {ε α β : Type}

/-- A conversion that throws makes the call throw the same exception and do nothing else, and a
call that returns leaves no exception pending. -/
structure Transparent (o : Outcome E ε α) : Prop where
  thrown : ∀ r ∈ o.raised, r.1.converts = true →
    o.result = none ∧ o.rt.pending = some r.2 ∧ o.effects = []
  returned : o.result ≠ none → o.rt.pending = none

/-- No conversion has thrown. -/
def Converts (o : Outcome E ε α) : Prop := ∀ r ∈ o.raised, r.1.converts = false

/-- No test for bytes has failed. -/
def FindsBytes (o : Outcome E ε α) : Prop := ∀ r ∈ o.raised, r.1.converts = true

theorem raised_eq_nil {o : Outcome E ε α} (converts : Converts o) (bytes : FindsBytes o) :
    o.raised = [] := by
  refine List.eq_nil_iff_forall_not_mem.mpr fun r hr => ?_
  have h := converts r hr
  rw [bytes r hr] at h
  cases h

/-- An error of its own is thrown by a Go function only. -/
def Thrown.Own {X : Type} (e : Thrown X) : Prop := ∃ msg, e = .internalError msg

theorem lift_not_own {r : Except E.Exn α × E.World} {e : Thrown E.Exn}
    (h : (E.lift r).1 = .error e) : ¬ e.Own := by
  rintro ⟨msg, rfl⟩
  rcases r with ⟨_ | _, _⟩ <;> cases h

theorem toStr_not_own {v : Value E.Obj} {w : E.World} {e : Thrown E.Exn}
    (h : (E.toStr v w).1 = .error e) : ¬ e.Own := by
  cases v with
  | object o => exact lift_not_own h
  | «exception» | symbol =>
    cases h
    rintro ⟨_, ⟨⟩⟩
  | _ => cases h

theorem toNum_not_own {v : Value E.Obj} {w : E.World} {e : Thrown E.Exn}
    (h : (E.toNum v w).1 = .error e) : ¬ e.Own := by
  cases v with
  | object o => exact lift_not_own h
  | «exception» | symbol | bigInt =>
    cases h
    rintro ⟨_, ⟨⟩⟩
  | _ => cases h

theorem bytesOf_not_own {v : Value E.Obj} {w : E.World} {e : Thrown E.Exn}
    (h : E.bytesOf v w = .error e) : ¬ e.Own := by
  unfold Engine.bytesOf at h
  split at h
  · cases h
  · split at h
    · cases h
    · cases h
      rintro ⟨_, ⟨⟩⟩
  · cases h
    rintro ⟨_, ⟨⟩⟩

theorem get_not_own {v : Value E.Obj} {name : GoString} {w : E.World} {e : Thrown E.Exn}
    (h : (E.get v name w).1 = .error e) : ¬ e.Own := by
  unfold Engine.get at h
  split at h
  · cases h
  · exact lift_not_own h
  · split at h <;> cases h
  · cases h
    rintro ⟨_, ⟨⟩⟩
  · cases h
    rintro ⟨_, ⟨⟩⟩
  · cases h
    rintro ⟨_, ⟨⟩⟩
  · cases h

theorem keysOf_not_own {v : Value E.Obj} {w : E.World} {e : Thrown E.Exn}
    (h : (E.keysOf v w).1 = .error e) : ¬ e.Own := by
  unfold Engine.keysOf at h
  split at h
  · cases h
  · exact lift_not_own h
  · cases h
  · cases h
  · cases h
    rintro ⟨_, ⟨⟩⟩

theorem error_of_map {γ : Type} {r : Except (Thrown E.Exn) α} {f : α → γ} {e : Thrown E.Exn}
    (h : r.map f = .error e) : r = .error e := by
  cases r with
  | error _ => exact congrArg Except.error (Except.error.inj h)
  | ok _ => cases h

theorem answer_not_own {op : Op E.Obj} {w : E.World} {e : Thrown E.Exn}
    (h : (E.answer op w).1 = .error e) : ¬ e.Own := by
  cases op with
  | string v => exact toStr_not_own (error_of_map h)
  | int32 v | int64 v => exact toNum_not_own (error_of_map h)
  | toByteArray v => exact bytesOf_not_own (error_of_map h)
  | get v name => exact get_not_own h
  | keys v => exact keysOf_not_own (error_of_map h)

/-- An operation raises nothing, or one error, which it then leaves pending. -/
theorem perform_cases (op : Op E.Obj) (s : Rt E) :
    (perform E op s).2.2 = [] ∨
      ∃ e, (perform E op s).2.2 = [(op, e)] ∧ (perform E op s).2.1.pending = some e ∧ ¬ e.Own := by
  unfold perform
  split
  · exact .inl rfl
  · split
    · exact .inl rfl
    · rename_i e w h
      exact .inr ⟨e, rfl, rfl, answer_not_own (congrArg Prod.fst h)⟩

/-- What is pending after an operation: its own error where it fails, and where it succeeds what
the user code of an object leaves; all others leave what was pending before. -/
def Engine.leftBy (E : Engine) (op : Op E.Obj) (w : E.World) (pending : Option (Thrown E.Exn)) :
    Option (Thrown E.Exn) :=
  if op.onException then pending
  else
    match (E.answer op w).1 with
    | .ok _ => E.pendingAfter op w pending
    | .error e => some e

theorem pending_perform (op : Op E.Obj) (s : Rt E) :
    (perform E op s).2.1.pending = E.leftBy op s.world s.pending := by
  unfold perform Engine.leftBy
  split
  · rfl
  · rcases E.answer op s.world with ⟨_ | _, _⟩ <;> rfl

/-- Without user code an operation leaves nothing behind exactly if it raises nothing and nothing
was pending. -/
theorem leftBy_eq_none_iff (op : Op E.Obj) (s : Rt E) (plain : op.runs = false) :
    (perform E op s).2.1.pending = none ↔ (perform E op s).2.2 = [] ∧ s.pending = none := by
  unfold perform Engine.pendingAfter
  rw [plain]
  split
  · simp
  · split <;> simp

theorem run_op (op : Op E.Obj) (k : op.Answer → Call E.Obj ε α) (s : Rt E) :
    run E (.op op k) s =
      (run E (k (perform E op s).1) (perform E op s).2.1).after (perform E op s).2.2 [] := rfl

/-- Nothing that the engine raises is an error of the function. -/
theorem raised_not_own (c : Call E.Obj ε α) (s : Rt E) :
    ∀ r ∈ (run E c s).raised, ¬ r.2.Own := by
  induction c generalizing s with
  | ret a => simp
  | «throwError» msg => simp [run]
  | op o k ih =>
    intro r hr
    rw [run_op] at hr
    rcases List.mem_append.mp hr with hr | hr
    · rcases perform_cases o s with none | ⟨e, raised, _, notOwn⟩
      · rw [none] at hr
        cases hr
      · rw [raised] at hr
        obtain rfl := List.mem_singleton.mp hr
        exact notOwn
    · exact ih _ _ r hr
  | effect e k ih => exact ih s
  | takeException k ih => exact ih _

/-- A call that does not return throws an error of the function. -/
theorem own_of_thrown (c : Call E.Obj ε α) (s : Rt E) (h : (run E c s).result = none) :
    ∃ e, (run E c s).rt.pending = some e ∧ e.Own := by
  induction c generalizing s with
  | ret a => cases h
  | «throwError» msg => exact ⟨_, rfl, msg, rfl⟩
  | op o k ih => exact ih _ _ h
  | effect e k ih => exact ih s h
  | takeException k ih => exact ih _ h

/-- No function passes an exception of a conversion on. -/
theorem Transparent.converts {c : Call E.Obj ε α} {s : Rt E} (h : Transparent (run E c s)) :
    Converts (run E c s) := by
  intro r hr
  by_contra thrown
  obtain ⟨result, pending, _⟩ := h.thrown r hr (by simpa using thrown)
  obtain ⟨e, pending', own⟩ := own_of_thrown c s result
  rw [pending] at pending'
  exact raised_not_own c s r hr (Option.some.inj pending' ▸ own)

/-- A body that only asks the engine. -/
inductive Reader : Call E.Obj ε α → Prop where
  | ret (a : α) : Reader (.ret a)
  | op {o : Op E.Obj} {k : o.Answer → Call E.Obj ε α} (h : ∀ a, Reader (k a)) : Reader (.op o k)

theorem Reader.bind {c : Call E.Obj ε α} {f : α → Call E.Obj ε β} (h : Reader c)
    (hf : ∀ a, Reader (f a)) : Reader (c >>= f) := by
  induction h with
  | ret a => exact hf a
  | op h ih => exact .op ih

/-- A body that asks nothing any more. -/
def Ends : Call E.Obj ε α → Prop
  | .ret _ => True
  | .throwError _ => True
  | .op _ _ => False
  | .effect _ k => Ends k
  | .takeException _ => False

/-- It ends in an error of its own. -/
def Refuses : Call E.Obj ε α → Prop
  | .throwError _ => True
  | .effect _ k => Refuses k
  | _ => False

/-- The operations of a body in their order, each with the world it is made in. -/
def asks (E : Engine) {ε α : Type} : Call E.Obj ε α → E.World → List (Op E.Obj × E.World)
  | .ret _, _ => []
  | .throwError _, _ => []
  | .op o k, w =>
    (o, w) :: asks E (k (perform E o ⟨w, none⟩).1) (perform E o ⟨w, none⟩).2.1.world
  | .effect _ k, w => asks E k w
  | .takeException k, w => asks E k w

/-- What the operations of a body leave pending, one after the other. -/
def leftPending (c : Call E.Obj ε α) (s : Rt E) : Option (Thrown E.Exn) :=
  (asks E c s.world).foldl (fun pending x => E.leftBy x.1 x.2 pending) s.pending

theorem asks_op (o : Op E.Obj) (k : o.Answer → Call E.Obj ε α) (s : Rt E) :
    asks E (.op o k) s.world =
      (o, s.world) :: asks E (k (perform E o s).1) (perform E o s).2.1.world := by
  obtain ⟨answer, world⟩ := perform_pending E o ⟨s.world, none⟩ s rfl
  rw [asks, answer, world]

theorem leftPending_op (o : Op E.Obj) (k : o.Answer → Call E.Obj ε α) (s : Rt E) :
    leftPending (.op o k) s = leftPending (k (perform E o s).1) (perform E o s).2.1 := by
  rw [leftPending, asks_op, List.foldl_cons, ← pending_perform]
  rfl

structure ReaderOutcome (c : Call E.Obj ε α) (s : Rt E) : Prop where
  result : ∃ a, (run E c s).result = some a
  effects : (run E c s).effects = []
  pending : (run E c s).rt.pending = leftPending c s

theorem Reader.outcome {c : Call E.Obj ε α} (h : Reader c) (s : Rt E) : ReaderOutcome c s := by
  induction h generalizing s with
  | ret a => exact ⟨⟨a, rfl⟩, rfl, rfl⟩
  | @op o k _ ih =>
    obtain ⟨result, effects, pending⟩ := ih (perform E o s).1 (perform E o s).2.1
    exact ⟨result, effects, pending.trans (leftPending_op o k s).symm⟩

/-- A body that runs no user code leaves nothing behind exactly if it raises nothing and nothing
was pending. -/
theorem Reader.leftPending_eq_none_iff {c : Call E.Obj ε α} (h : Reader c) (s : Rt E)
    (plain : ∀ x ∈ asks E c s.world, x.1.runs = false) :
    leftPending c s = none ↔ (run E c s).raised = [] ∧ s.pending = none := by
  induction h generalizing s with
  | ret a => simp [leftPending, asks]
  | @op o k _ ih =>
    rw [asks_op] at plain
    have first := leftBy_eq_none_iff o s (plain _ List.mem_cons_self)
    rw [leftPending_op, ih _ _ fun x hx => plain x (List.mem_cons_of_mem _ hx), first, run_op]
    change _ ↔ _ ++ _ = [] ∧ _
    rw [List.append_eq_nil_iff, and_assoc, and_left_comm]

theorem run_bind (c : Call E.Obj ε α) (f : α → Call E.Obj ε β) (s : Rt E) {a : α}
    (h : (run E c s).result = some a) :
    run E (c >>= f) s =
      (run E (f a) (run E c s).rt).after (run E c s).raised (run E c s).effects := by
  induction c generalizing s with
  | ret b =>
    cases h
    rfl
  | «throwError» msg => cases h
  | op o k ih =>
    have tail : run E (k (perform E o s).1 >>= f) (perform E o s).2.1 =
        (run E (f a) (run E (k (perform E o s).1) (perform E o s).2.1).rt).after
          (run E (k (perform E o s).1) (perform E o s).2.1).raised
          (run E (k (perform E o s).1) (perform E o s).2.1).effects := ih _ _ h
    rw [Call.op_bind, run_op, run_op, tail]
    simp [Outcome.after, List.append_assoc]
  | effect e k ih =>
    rw [Call.effect_bind]
    change (run E (k >>= f) s).after [] [e] = _
    rw [ih s h]
    rfl
  | takeException k ih => exact ih _ h

structure EndsOutcome (c : Call E.Obj ε α) (s : Rt E) : Prop where
  raised : (run E c s).raised = []
  refuses : (run E c s).result = none ↔ Refuses c
  pending : (run E c s).result ≠ none → (run E c s).rt.pending = s.pending

theorem Ends.outcome {c : Call E.Obj ε α} (h : Ends c) (s : Rt E) : EndsOutcome c s := by
  induction c generalizing s with
  | ret a => exact ⟨rfl, by simp [Refuses], fun _ => rfl⟩
  | «throwError» msg => exact ⟨rfl, by simp [Refuses, run], fun some => absurd rfl some⟩
  | op o k ih => exact h.elim
  | effect e k ih =>
    obtain ⟨raised, refuses, pending⟩ := ih h s
    exact ⟨raised, refuses, pending⟩
  | takeException k ih => exact h.elim

/-- A body that reads and then ends is transparent exactly if what it reads can be converted and,
unless it ends in an error of its own, the reading leaves no exception pending. -/
theorem transparent_bind_iff {c : Call E.Obj ε α} {f : α → Call E.Obj ε β} (reader : Reader c)
    (ends : ∀ a, Ends (f a)) (s : Rt E) :
    Transparent (run E (c >>= f) s) ↔
      Converts (run E c s) ∧ ∀ a ∈ (run E c s).result, Refuses (f a) ∨ leftPending c s = none := by
  have outcome := reader.outcome s
  obtain ⟨a, result⟩ := outcome.result
  have tail := (ends a).outcome (run E c s).rt
  have whole := run_bind c f s result
  have raised : (run E (c >>= f) s).raised = (run E c s).raised := by
    rw [whole, Outcome.after, tail.raised, List.append_nil]
  constructor
  · intro h
    have converts : Converts (run E c s) := fun r hr => h.converts r (raised ▸ hr)
    refine ⟨converts, fun b hb => ?_⟩
    obtain rfl : a = b := Option.some.inj (result.symm.trans hb)
    by_cases refuses : Refuses (f a)
    · exact .inl refuses
    · have returns : (run E (f a) (run E c s).rt).result ≠ none := fun none =>
        refuses (tail.refuses.mp none)
      have settled := h.returned (by rw [whole]; exact returns)
      rw [whole] at settled
      have pending : (run E c s).rt.pending = none := (tail.pending returns).symm.trans settled
      exact .inr (outcome.pending.symm.trans pending)
  · rintro ⟨converts, rest⟩
    refine ⟨fun r hr thrown => ?_, fun returns => ?_⟩
    · have false := converts r (raised ▸ hr)
      rw [thrown] at false
      cases false
    · rw [whole] at returns ⊢
      rcases rest a result with refuses | nothing
      · exact absurd (tail.refuses.mpr refuses) returns
      · exact (tail.pending returns).trans (outcome.pending.trans nothing)

end

end Qjs
