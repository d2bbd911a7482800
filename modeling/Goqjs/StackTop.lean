import Goqjs.Runs
import Mathlib.Data.List.Basic

/-!
# The stack limit

The runtime has one `stack_top`; the overflow check compares the stack pointer
with it. `goqjs_eval` and `goqjs_call` run JavaScript on a thread of their own
and set `stack_top` before and after; `ExecutePendingJob` runs it where it is
called. JavaScript calls back into Go on its own thread, and Go may enter it
again from there. The state is the runtime with the nest of active frames,
innermost first; an action carries the stack pointers the machine chooses.
-/

namespace StackTop

open Runs

structure Runtime where
  stackSize : UInt64
  stackTop : UInt64
  stackLimit : UInt64
  deriving DecidableEq

/-- `update_stack_limit`. -/
def updateStackLimit (rt : Runtime) : Runtime :=
  { rt with stackLimit := if rt.stackSize = 0 then 0 else rt.stackTop - rt.stackSize }

/-- `JS_SetMaxStackSize`. -/
def setMaxStackSize (rt : Runtime) (size : UInt64) : Runtime :=
  updateStackLimit { rt with stackSize := size }

/-- `JS_UpdateStackTop` with the stack pointer it reads. -/
def updateStackTop (rt : Runtime) (sp : UInt64) : Runtime :=
  updateStackLimit { rt with stackTop := sp }

/-- `js_check_stack_overflow` with the stack pointer it reads. -/
def checkStackOverflow (rt : Runtime) (sp allocaSize : UInt64) : Bool :=
  decide (sp - allocaSize < rt.stackLimit)

/-- The calls that enter JavaScript. -/
inductive Entry where
  | eval
  | evalModule
  | call
  | executePendingJob
  deriving DecidableEq

/-- An active frame with its thread and the stack pointer at which it began: Go code,
`goqjs_eval` or `goqjs_call` at `pthread_join`, JavaScript. -/
inductive Frame where
  | go (thread : Nat) (sp : UInt64)
  | wrapper (thread : Nat) (sp : UInt64)
  | js (entry : Entry) (thread : Nat) (sp : UInt64)
  deriving DecidableEq

def Frame.isJS : Frame → Bool
  | .js _ _ _ => true
  | _ => false

def Frame.thread : Frame → Nat
  | .go t _ => t
  | .wrapper t _ => t
  | .js _ t _ => t

structure Machine where
  rt : Runtime
  frames : List Frame
  deriving DecidableEq

inductive Event where
  | entered (entry : Entry) (thread : Nat) (sp : UInt64)
  | returned (entry : Entry)
  deriving DecidableEq

/-- `NewRuntime`, called by Go code that began at `base` with the stack pointer `sp`. -/
def newRuntime (thread : Nat) (base sp : UInt64) : Machine where
  rt := updateStackTop ⟨1024 * 1024, 0, 0⟩ sp
  frames := [.go thread base]

/-- `Runtime.UpdateStackTop`. Stacks grow downwards. -/
def goUpdateStackTop (m : Machine) (sp : UInt64) : Option (Machine × List Event) :=
  match m.frames with
  | .go _ base :: _ =>
    if sp < base then some ({ m with rt := updateStackTop m.rt sp }, []) else none
  | _ => none

def goSetMaxStackSize (m : Machine) (size : UInt64) : Option (Machine × List Event) :=
  match m.frames with
  | .go _ _ :: _ => some ({ m with rt := setMaxStackSize m.rt size }, [])
  | _ => none

/-- A call that runs JavaScript on a thread of its own: `UpdateStackTop` at `goSp`, the
wrapper at `sp`, and `JS_UpdateStackTop` on the new thread; where `pthread_create` fails
the wrapper updates and goes on itself. -/
def enter (m : Machine) (entry : Entry) (goSp sp : UInt64) (created : Option (Nat × UInt64)) :
    Option (Machine × List Event) :=
  match m.frames with
  | .go t base :: rest =>
    if goSp < base ∧ sp < base then
      let rt := updateStackTop m.rt goSp
      match created with
      | some (t', sp') =>
        if t' ∈ m.frames.map Frame.thread then none
        else
          some ({ m with rt := updateStackTop rt sp',
                         frames := .js entry t' sp' :: .wrapper t sp :: .go t base :: rest },
            [.entered entry t' sp'])
      | none =>
        some ({ m with rt := updateStackTop rt sp,
                       frames := .js entry t sp :: .go t base :: rest },
          [.entered entry t sp])
    else none
  | _ => none

/-- `Context.Eval` through `goqjs_eval`. -/
def eval (m : Machine) (goSp sp : UInt64) (created : Option (Nat × UInt64)) :
    Option (Machine × List Event) :=
  enter m .eval goSp sp created

/-- `Context.EvalModule` through `goqjs_eval`. -/
def evalModule (m : Machine) (goSp sp : UInt64) (created : Option (Nat × UInt64)) :
    Option (Machine × List Event) :=
  enter m .evalModule goSp sp created

/-- `Value.Call` through `goqjs_call`. -/
def call (m : Machine) (goSp sp : UInt64) (created : Option (Nat × UInt64)) :
    Option (Machine × List Event) :=
  enter m .call goSp sp created

/-- `Runtime.ExecutePendingJob` leaves `stack_top` as it is. -/
def executePendingJob (m : Machine) (sp : UInt64) : Option (Machine × List Event) :=
  match m.frames with
  | .go t base :: rest =>
    if sp < base then
      some ({ m with frames := .js .executePendingJob t sp :: .go t base :: rest },
        [.entered .executePendingJob t sp])
    else none
  | _ => none

/-- JavaScript calls a Go function: `goqjs_proxy_fn` runs on the same thread. -/
def callback (m : Machine) (sp : UInt64) : Option (Machine × List Event) :=
  match m.frames with
  | .js entry t base :: rest =>
    if sp < base then some ({ m with frames := .go t sp :: .js entry t base :: rest }, [])
    else none
  | _ => none

/-- The Go function returns to the JavaScript that called it. -/
def callbackReturn (m : Machine) : Option (Machine × List Event) :=
  match m.frames with
  | .go _ _ :: .js entry t base :: rest =>
    some ({ m with frames := .js entry t base :: rest }, [])
  | _ => none

/-- The JavaScript of an entry returns: behind `pthread_join` the wrapper updates
`stack_top` on its own thread, else nothing does. -/
def jsReturn (m : Machine) : Option (Machine × List Event) :=
  match m.frames with
  | .js entry _ _ :: .wrapper _ sp :: rest =>
    some ({ m with rt := updateStackTop m.rt sp, frames := rest }, [.returned entry])
  | .js entry _ _ :: rest => some ({ m with frames := rest }, [.returned entry])
  | _ => none

/-- Between calls the goroutine may go on on another thread. -/
def reschedule (m : Machine) (thread : Nat) (base : UInt64) : Option (Machine × List Event) :=
  match m.frames with
  | [.go _ _] => some ({ m with frames := [.go thread base] }, [])
  | _ => none

inductive Action where
  | updateStackTop (sp : UInt64)
  | setMaxStackSize (size : UInt64)
  | eval (goSp sp : UInt64) (created : Option (Nat × UInt64))
  | evalModule (goSp sp : UInt64) (created : Option (Nat × UInt64))
  | call (goSp sp : UInt64) (created : Option (Nat × UInt64))
  | executePendingJob (sp : UInt64)
  | callback (sp : UInt64)
  | callbackReturn
  | jsReturn
  | reschedule (thread : Nat) (base : UInt64)

def step (m : Machine) : Action → Option (Machine × List Event)
  | .updateStackTop sp => goUpdateStackTop m sp
  | .setMaxStackSize size => goSetMaxStackSize m size
  | .eval goSp sp created => eval m goSp sp created
  | .evalModule goSp sp created => evalModule m goSp sp created
  | .call goSp sp created => call m goSp sp created
  | .executePendingJob sp => executePendingJob m sp
  | .callback sp => callback m sp
  | .callbackReturn => callbackReturn m
  | .jsReturn => jsReturn m
  | .reschedule thread base => reschedule m thread base

variable {m m' : Machine} {a : Action} {ev log : List Event}

/-- While JavaScript executes, `stack_top` is where its entry began. -/
def TopRight (m : Machine) : Prop :=
  ∀ entry t sp rest, m.frames = .js entry t sp :: rest → m.rt.stackTop = sp

/-- While JavaScript executes, the overflow check fires wherever more than the maximum
stack size below its entry would be in use. -/
def LimitRight (m : Machine) : Prop :=
  ∀ entry t sp rest, m.frames = .js entry t sp :: rest → m.rt.stackSize ≠ 0 →
    ∀ here allocaSize, (here - allocaSize).toNat + m.rt.stackSize.toNat < sp.toNat →
      checkStackOverflow m.rt here allocaSize = true

/-- No entry is active. -/
def NoJS (frames : List Frame) : Prop := ∀ f ∈ frames, f.isJS = false

/-- The steps that leave `stack_top` right: `stack_top` is not set from Go, neither
directly nor by an entry, while JavaScript is active further out, and a pending job is
executed at the recorded position. -/
def StepOk (m : Machine) : Action → Prop
  | .updateStackTop _ => NoJS m.frames
  | .eval _ _ _ => NoJS m.frames
  | .evalModule _ _ _ => NoJS m.frames
  | .call _ _ _ => NoJS m.frames
  | .executePendingJob sp => m.rt.stackTop = sp
  | _ => True

/-- The three fields of the runtime agree. -/
def LimitSet (rt : Runtime) : Prop :=
  rt.stackLimit = if rt.stackSize = 0 then 0 else rt.stackTop - rt.stackSize

theorem limitSet_update (rt : Runtime) (sp : UInt64) : LimitSet (updateStackTop rt sp) := rfl

theorem limitSet_size (rt : Runtime) (size : UInt64) : LimitSet (setMaxStackSize rt size) := rfl

theorem checkStackOverflow_of_below {rt : Runtime} (set : LimitSet rt) (on : rt.stackSize ≠ 0)
    {here allocaSize : UInt64}
    (below : (here - allocaSize).toNat + rt.stackSize.toNat < rt.stackTop.toNat) :
    checkStackOverflow rt here allocaSize = true := by
  rw [LimitSet, if_neg on] at set
  have le : rt.stackSize ≤ rt.stackTop := UInt64.le_iff_toNat_le.mpr (by omega)
  rw [checkStackOverflow, decide_eq_true_eq, UInt64.lt_iff_toNat_lt, set,
    UInt64.toNat_sub_of_le _ _ le]
  omega

/-- No JavaScript is active outside a wrapper. -/
def Nested : List Frame → Prop
  | [] => True
  | .wrapper _ _ :: rest => NoJS rest ∧ Nested rest
  | .go _ _ :: rest => Nested rest
  | .js _ _ _ :: rest => Nested rest

/-- Every active entry began at `stack_top`. -/
structure Inv (m : Machine) : Prop where
  set : LimitSet m.rt
  js : ∀ entry t sp, .js entry t sp ∈ m.frames → m.rt.stackTop = sp
  nested : Nested m.frames

theorem NoJS.js {frames : List Frame} (h : NoJS frames) {entry : Entry} {t : Nat} {sp : UInt64} :
    .js entry t sp ∉ frames := by
  intro mem
  cases h _ mem

theorem inv_of_noJS {frames : List Frame} {rt : Runtime} (set : LimitSet rt) (none : NoJS frames)
    (nested : Nested frames) : Inv ⟨rt, frames⟩ :=
  ⟨set, fun _ _ _ mem => absurd mem none.js, nested⟩

theorem inv_enter (inv : Inv m) (ok : NoJS m.frames) {entry : Entry} {goSp sp : UInt64}
    {created : Option (Nat × UInt64)} (h : enter m entry goSp sp created = some (m', ev)) :
    Inv m' := by
  simp only [enter] at h
  split at h
  · rename_i t base rest frames
    rw [frames] at ok
    have nested := inv.nested
    rw [frames] at nested
    split at h
    · split at h
      · split at h
        · cases h
        · cases h
          refine ⟨limitSet_update _ _, ?_, ok, nested⟩
          intro e t' sp' mem
          rcases List.mem_cons.mp mem with eq | mem
          · cases eq
            rfl
          · rcases List.mem_cons.mp mem with eq | mem
            · cases eq
            · exact absurd mem ok.js
      · cases h
        refine ⟨limitSet_update _ _, ?_, nested⟩
        intro e t' sp' mem
        rcases List.mem_cons.mp mem with eq | mem
        · cases eq
          rfl
        · exact absurd mem ok.js
    · cases h
  · cases h

theorem inv_goUpdateStackTop (inv : Inv m) (ok : NoJS m.frames) {sp : UInt64}
    (h : goUpdateStackTop m sp = some (m', ev)) : Inv m' := by
  simp only [goUpdateStackTop] at h
  split at h <;> [split at h; skip] <;> cases h
  exact inv_of_noJS (limitSet_update _ _) ok inv.nested

theorem inv_goSetMaxStackSize (inv : Inv m) {size : UInt64}
    (h : goSetMaxStackSize m size = some (m', ev)) : Inv m' := by
  simp only [goSetMaxStackSize] at h
  split at h <;> cases h
  exact ⟨limitSet_size _ _, inv.js, inv.nested⟩

theorem inv_executePendingJob (inv : Inv m) {sp : UInt64} (ok : m.rt.stackTop = sp)
    (h : executePendingJob m sp = some (m', ev)) : Inv m' := by
  have js := inv.js
  have nested := inv.nested
  simp only [executePendingJob] at h
  split at h <;> [split at h; skip] <;> cases h
  rename_i t base rest frames _
  rw [frames] at js nested
  refine ⟨inv.set, ?_, nested⟩
  intro e t' sp' mem
  rcases List.mem_cons.mp mem with eq | mem
  · cases eq
    exact ok
  · exact js e t' sp' mem

theorem inv_callback (inv : Inv m) {sp : UInt64} (h : callback m sp = some (m', ev)) :
    Inv m' := by
  have js := inv.js
  have nested := inv.nested
  simp only [callback] at h
  split at h <;> [split at h; skip] <;> cases h
  rename_i entry t base rest frames _
  rw [frames] at js nested
  refine ⟨inv.set, ?_, nested⟩
  intro e t' sp' mem
  rcases List.mem_cons.mp mem with eq | mem
  · cases eq
  · exact js e t' sp' mem

theorem inv_callbackReturn (inv : Inv m) (h : callbackReturn m = some (m', ev)) : Inv m' := by
  have js := inv.js
  have nested := inv.nested
  simp only [callbackReturn] at h
  split at h <;> cases h
  rename_i frames
  rw [frames] at js nested
  exact ⟨inv.set, fun e t sp mem => js e t sp (List.mem_cons_of_mem _ mem), nested⟩

theorem inv_jsReturn (inv : Inv m) (h : jsReturn m = some (m', ev)) : Inv m' := by
  have js := inv.js
  have nested := inv.nested
  simp only [jsReturn] at h
  split at h <;> cases h
  · rename_i frames
    rw [frames] at nested
    exact inv_of_noJS (limitSet_update _ _) nested.1 nested.2
  · rename_i frames
    rw [frames] at js nested
    exact ⟨inv.set, fun e t sp mem => js e t sp (List.mem_cons_of_mem _ mem), nested⟩

theorem inv_reschedule (inv : Inv m) {thread : Nat} {base : UInt64}
    (h : reschedule m thread base = some (m', ev)) : Inv m' := by
  simp only [reschedule] at h
  split at h <;> cases h
  exact inv_of_noJS inv.set (by simp [NoJS, Frame.isJS]) trivial

theorem Inv.step (inv : Inv m) (ok : StepOk m a) (hs : StackTop.step m a = some (m', ev)) :
    Inv m' := by
  cases a with
  | updateStackTop sp => exact inv_goUpdateStackTop inv ok hs
  | setMaxStackSize size => exact inv_goSetMaxStackSize inv hs
  | eval goSp sp created => exact inv_enter inv ok hs
  | evalModule goSp sp created => exact inv_enter inv ok hs
  | call goSp sp created => exact inv_enter inv ok hs
  | executePendingJob sp => exact inv_executePendingJob inv ok hs
  | callback sp => exact inv_callback inv hs
  | callbackReturn => exact inv_callbackReturn inv hs
  | jsReturn => exact inv_jsReturn inv hs
  | reschedule thread base => exact inv_reschedule inv hs

theorem inv_newRuntime (thread : Nat) (base sp : UInt64) : Inv (newRuntime thread base sp) :=
  inv_of_noJS (limitSet_update _ _) (by simp [NoJS, Frame.isJS]) trivial

theorem Inv.topRight (inv : Inv m) : TopRight m :=
  fun entry t sp _ frames => inv.js entry t sp (frames ▸ List.mem_cons_self)

theorem Inv.limitRight (inv : Inv m) : LimitRight m := by
  intro entry t sp rest frames on here allocaSize below
  rw [← inv.topRight entry t sp rest frames] at below
  exact checkStackOverflow_of_below inv.set on below

/-- In a run whose steps are all fit, JavaScript always executes with the `stack_top` and
the stack limit of its own entry. -/
theorem stack_limit_right {thread : Nat} {base sp : UInt64} {as : List Action}
    (run : exec step (newRuntime thread base sp) as = some (m, log))
    (ok : AllSteps step StepOk (newRuntime thread base sp) as) : TopRight m ∧ LimitRight m := by
  have inv : Inv m := exec_state_invariant StepOk
    (fun _ _ _ _ inv ok hs => inv.step ok hs) (inv_newRuntime thread base sp) ok run
  exact ⟨inv.topRight, inv.limitRight⟩

/-- A call with a callback in it, and a pending job at the position it left. -/
theorem stack_limit_right_run : ∃ m log,
    exec step (newRuntime 0 0x70000000 0x6fff0000)
      [.call 0x6ffe0000 0x6ffd0000 (some (1, 0x90000000)), .callback 0x8fff0000, .callbackReturn,
        .jsReturn, .executePendingJob 0x6ffd0000] = some (m, log) ∧
      m.frames = [.js .executePendingJob 0 0x6ffd0000, .go 0 0x70000000] ∧
      TopRight m ∧ LimitRight m := by
  have steps : AllSteps step StepOk (newRuntime 0 0x70000000 0x6fff0000)
      [.call 0x6ffe0000 0x6ffd0000 (some (1, 0x90000000)), .callback 0x8fff0000, .callbackReturn,
        .jsReturn, .executePendingJob 0x6ffd0000] := by
    refine allSteps_cons ?_ rfl (allSteps_cons trivial rfl (allSteps_cons trivial rfl
      (allSteps_cons trivial rfl (allSteps_cons rfl rfl trivial))))
    simp [StepOk, NoJS, newRuntime, Frame.isJS]
  obtain ⟨m, log, run, frames⟩ : ∃ m log,
      exec step (newRuntime 0 0x70000000 0x6fff0000)
        [.call 0x6ffe0000 0x6ffd0000 (some (1, 0x90000000)), .callback 0x8fff0000,
          .callbackReturn, .jsReturn, .executePendingJob 0x6ffd0000] = some (m, log) ∧
      m.frames = [.js .executePendingJob 0 0x6ffd0000, .go 0 0x70000000] := ⟨_, _, rfl, rfl⟩
  exact ⟨m, log, run, frames, stack_limit_right run steps⟩

/-- An entry that has returned leaves `stack_top` at its wrapper, or at its own beginning. -/
theorem enter_return {m₁ m₂ : Machine} {ev₁ ev₂ : List Event} {entry : Entry} {t : Nat}
    {base goSp sp : UInt64} {rest : List Frame} {created : Option (Nat × UInt64)}
    (frames : m.frames = .go t base :: rest)
    (h₁ : enter m entry goSp sp created = some (m₁, ev₁)) (h₂ : jsReturn m₁ = some (m₂, ev₂)) :
    m₂.frames = m.frames ∧ m₂.rt.stackTop = sp ∧ sp < base := by
  simp only [enter, frames] at h₁
  split at h₁
  · rename_i inside
    cases created with
    | none =>
      cases h₁
      cases h₂
      exact ⟨frames.symm, rfl, inside.2⟩
    | some thread =>
      simp only at h₁
      split at h₁
      · cases h₁
      · cases h₁
        cases h₂
        exact ⟨frames.symm, rfl, inside.2⟩
  · cases h₁

/-- A call made from a callback leaves `stack_top` below the entry that is returned to. -/
theorem nested_call_lowers {entry : Entry} {t : Nat} {e p goSp sp : UInt64} {rest : List Frame}
    {created : Option (Nat × UInt64)} (frames : m.frames = .js entry t e :: rest)
    (run : exec step m [.callback p, .call goSp sp created, .jsReturn, .callbackReturn] =
      some (m', log)) : m'.frames = m.frames ∧ m'.rt.stackTop < e := by
  obtain ⟨m₁, _, _, h₁, run, _⟩ := exec_cons_iff.mp run
  obtain ⟨m₂, _, _, h₂, run, _⟩ := exec_cons_iff.mp run
  obtain ⟨m₃, _, _, h₃, run, _⟩ := exec_cons_iff.mp run
  obtain ⟨m₄, _, _, h₄, run, _⟩ := exec_cons_iff.mp run
  cases run
  simp only [step, callback, frames] at h₁
  split at h₁
  · rename_i below
    cases h₁
    simp only [step, call] at h₂ h₃ h₄
    obtain ⟨kept, top, inside⟩ := enter_return rfl h₂ h₃
    simp only [callbackReturn, kept] at h₄
    cases h₄
    rw [top]
    exact ⟨frames.symm, UInt64.lt_trans inside below⟩
  · cases h₁

/-- JavaScript that has been called calls a Go function which calls JavaScript, as
`Response.text` does: back in the outer call the limit is 1 MiB too low. -/
theorem stack_limit_fails : ∃ m log,
    exec step (newRuntime 0 0x70000000 0x6fff0000)
      [.call 0x6ffe0000 0x6ffd0000 (some (1, 0x90000000)), .callback 0x8fff0000,
        .call 0x8ffe0000 0x8ff00000 (some (2, 0xa0000000)), .jsReturn, .callbackReturn] =
      some (m, log) ∧ ¬ TopRight m ∧ ¬ LimitRight m := by
  refine ⟨_, _, rfl, fun right => ?_, fun right => ?_⟩
  · have := right _ _ _ _ rfl
    revert this
    decide
  · have := right _ _ _ _ rfl (by decide) 0x8fe80000 0 (by decide)
    revert this
    decide

end StackTop
