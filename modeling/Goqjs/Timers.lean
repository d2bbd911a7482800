import Goqjs.Runs
import Goqjs.GoChan
import Mathlib.Data.List.AList
import Mathlib.Logic.Function.Basic

/-!
# The timer manager

`TimerManager` of polyfill/timer.go together with the goroutines it starts.
The event-loop thread (`main`) runs JavaScript, `ProcessPending` and `Close`;
the Go runtime expires `time.AfterFunc` timers, ticks tickers and schedules the
goroutines of both in any order. An action is one atomic step of one of these
parties. A closure's code up to its call of the callback is one step with the
receive that precedes it: it runs on the event-loop thread and reads only the
map entry of its own id, which no other thread writes.

Times are milliseconds. Ids are the `int64` of `tm.counter`, which starts at 1.
-/

namespace Timers

open Runs

structure TimerEntry where
  fn : Nat
  interval : Bool
  delay : Nat
  canceled : Bool
  deriving DecidableEq

/-- The two kinds of `func()` sent on `tm.pending`; each captures its id. -/
inductive Closure where
  | timeout (id : Int)
  | interval (id : Int)
  deriving DecidableEq

def Closure.id : Closure → Int
  | .timeout id => id
  | .interval id => id

/-- `entry.timer` and the goroutine its expiry starts. -/
inductive AfterFunc where
  | unset
  | armed (deadline : Nat)
  | stopped
  | sending
  | returned
  deriving DecidableEq

/-- `Timer.Stop`: it has no effect once the timer has expired. -/
def AfterFunc.stop : AfterFunc → AfterFunc
  | .armed _ => .stopped
  | a => a

/-- `entry.ticker`; `tick` says that a tick lies in the channel `C`. -/
structure Ticker where
  running : Bool
  next : Nat
  period : Nat
  tick : Bool
  deriving DecidableEq

def Ticker.unset : Ticker := ⟨false, 0, 0, false⟩

/-- `Ticker.Stop` does not close `C`. -/
def Ticker.stop (t : Ticker) : Ticker := { t with running := false }

/-- The goroutine of `setInterval`: at the outer `select`, holding a tick and
about to load `tm.closed`, about to look up its id, at the inner `select`, done. -/
inductive IntervalLoop where
  | unset
  | selecting
  | ticked
  | looking
  | sending
  | returned
  deriving DecidableEq

/-- Where the event-loop thread is. `closing`, `waiting` and `draining` are the
points of `Close` before `close(tm.done)`, at `tm.wg.Wait()` and in the drain loop. -/
inductive Main where
  | idle
  | processing (processed : Bool)
  | calling (c : Closure) (fn : Nat)
  | closing
  | waiting
  | draining
  | closed
  deriving DecidableEq

/-- JavaScript, and with it the four timer functions, runs between two calls of
`ProcessPending`, inside a callback and also after `Close`: none of the four asks for `tm.closed`. -/
def Main.runsJS : Main → Bool
  | .idle => true
  | .calling _ _ => true
  | .closed => true
  | _ => false

structure TimerManager where
  now : Nat
  counter : Int
  timers : AList (fun _ : Int => TimerEntry)
  pending : GoChan Closure 256
  closed : Bool
  done : Bool
  wg : Nat
  afterFuncs : Int → AfterFunc
  tickers : Int → Ticker
  loops : Int → IntervalLoop
  main : Main

inductive Event where
  | registered (id : Int) (fn : Nat) (interval : Bool) (time delay : Nat)
  | fired (id : Int)
  | queued (c : Closure)
  | taken (c : Closure)
  | dropped (c : Closure)
  | started (id : Int) (fn : Nat)
  | ended (id : Int)
  | cleared (id : Int)
  | freed (id : Int) (fn : Nat)
  | processBegan
  | processed (any : Bool)
  | closeBegan
  | closeReturned
  deriving DecidableEq

/-- `NewTimerManager`. -/
def newTimerManager : TimerManager where
  now := 0
  counter := 0
  timers := ∅
  pending := GoChan.empty Closure 256
  closed := false
  done := false
  wg := 0
  afterFuncs := fun _ => .unset
  tickers := fun _ => Ticker.unset
  loops := fun _ => .unset
  main := .idle

/-- The runtime starts the goroutine of an expired `AfterFunc` timer. -/
def expire (tm : TimerManager) (id : Int) : Option (TimerManager × List Event) :=
  match tm.afterFuncs id with
  | .armed deadline =>
    if deadline ≤ tm.now then
      some ({ tm with afterFuncs := Function.update tm.afterFuncs id .sending }, [.fired id])
    else none
  | _ => none

/-- `case tm.pending <- func() {...}` of `setTimeout`. -/
def sendTimeout (tm : TimerManager) (id : Int) : Option (TimerManager × List Event) :=
  match tm.afterFuncs id with
  | .sending =>
    match tm.pending.send (.timeout id) with
    | some pending =>
      some ({ tm with pending := pending,
                      afterFuncs := Function.update tm.afterFuncs id .returned },
        [.queued (.timeout id)])
    | none => none
  | _ => none

/-- `case <-tm.done` of `setTimeout`. -/
def quitTimeout (tm : TimerManager) (id : Int) : Option (TimerManager × List Event) :=
  match tm.afterFuncs id with
  | .sending =>
    if tm.done then
      some ({ tm with afterFuncs := Function.update tm.afterFuncs id .returned }, [])
    else none
  | _ => none

/-- A running ticker is due; a tick that finds one in `C` already is dropped. -/
def tick (tm : TimerManager) (id : Int) : Option (TimerManager × List Event) :=
  let t := tm.tickers id
  if t.running ∧ t.next ≤ tm.now then
    some ({ tm with tickers := Function.update tm.tickers id
                      { t with tick := true, next := t.next + t.period } }, [.fired id])
  else none

/-- `case _, ok := <-entry.ticker.C`. -/
def receiveTick (tm : TimerManager) (id : Int) : Option (TimerManager × List Event) :=
  if tm.loops id = .selecting ∧ (tm.tickers id).tick then
    some ({ tm with tickers := Function.update tm.tickers id { tm.tickers id with tick := false },
                    loops := Function.update tm.loops id .ticked }, [])
  else none

/-- `if !ok || tm.closed.Load()`; the channel of a ticker is never closed. -/
def checkClosed (tm : TimerManager) (id : Int) : Option (TimerManager × List Event) :=
  if tm.loops id = .ticked then
    if tm.closed then
      some ({ tm with loops := Function.update tm.loops id .returned, wg := tm.wg - 1 }, [])
    else some ({ tm with loops := Function.update tm.loops id .looking }, [])
  else none

/-- `_, exists := tm.timers[id]` under the mutex. -/
def checkExists (tm : TimerManager) (id : Int) : Option (TimerManager × List Event) :=
  if tm.loops id = .looking then
    if id ∈ tm.timers then
      some ({ tm with loops := Function.update tm.loops id .sending }, [])
    else some ({ tm with loops := Function.update tm.loops id .returned, wg := tm.wg - 1 }, [])
  else none

/-- `case tm.pending <- func() {...}` of `setInterval`. -/
def sendInterval (tm : TimerManager) (id : Int) : Option (TimerManager × List Event) :=
  if tm.loops id = .sending then
    match tm.pending.send (.interval id) with
    | some pending =>
      some ({ tm with pending := pending, loops := Function.update tm.loops id .selecting },
        [.queued (.interval id)])
    | none => none
  else none

/-- `case <-tm.done` at either `select` of `setInterval`. -/
def quitInterval (tm : TimerManager) (id : Int) : Option (TimerManager × List Event) :=
  if tm.done ∧ (tm.loops id = .selecting ∨ tm.loops id = .sending) then
    some ({ tm with loops := Function.update tm.loops id .returned, wg := tm.wg - 1 }, [])
  else none

/-- `if delay < 0 { delay = 0 }`. -/
def timeoutDelay (delay : Option Int) : Nat := (delay.getD 0).toNat

/-- `if delay <= 0 { delay = 1 }`. -/
def intervalDelay (delay : Option Int) : Nat := max 1 (delay.getD 0).toNat

/-- The arguments of the call, where present: the callback, and the delay as `Int32` reads it. -/
def setTimeout (tm : TimerManager) (fn : Option Nat) (delay : Option Int) :
    Option (TimerManager × List Event) :=
  if tm.main.runsJS then
    match fn with
    | none => some (tm, [])
    | some fn =>
      let delay := timeoutDelay delay
      let id := tm.counter + 1
      some ({ tm with counter := id,
                      timers := tm.timers.insert id ⟨fn, false, delay, false⟩,
                      afterFuncs := Function.update tm.afterFuncs id (.armed (tm.now + delay)) },
        [.registered id fn false tm.now delay])
  else none

def setInterval (tm : TimerManager) (fn : Option Nat) (delay : Option Int) :
    Option (TimerManager × List Event) :=
  if tm.main.runsJS then
    match fn with
    | none => some (tm, [])
    | some fn =>
      let delay := intervalDelay delay
      let id := tm.counter + 1
      some ({ tm with counter := id,
                      timers := tm.timers.insert id ⟨fn, true, delay, false⟩,
                      tickers := Function.update tm.tickers id ⟨true, tm.now + delay, delay, false⟩,
                      loops := Function.update tm.loops id .selecting,
                      wg := tm.wg + 1 },
        [.registered id fn true tm.now delay])
  else none

/-- `entry.canceled = true`: the entry stays in the map. -/
def cancel (tm : TimerManager) (id : Int) (e : TimerEntry) : TimerManager :=
  { tm with timers := tm.timers.insert id { e with canceled := true } }

/-- `entry.timer.Stop()`. -/
def stopTimer (tm : TimerManager) (id : Int) : TimerManager :=
  { tm with afterFuncs := Function.update tm.afterFuncs id (tm.afterFuncs id).stop }

/-- `entry.ticker.Stop()`. -/
def stopTicker (tm : TimerManager) (id : Int) : TimerManager :=
  { tm with tickers := Function.update tm.tickers id (tm.tickers id).stop }

/-- `entry.timer` is nil for an interval. -/
def clearTimeout (tm : TimerManager) (id : Option Int) : Option (TimerManager × List Event) :=
  if tm.main.runsJS then
    match id with
    | none => some (tm, [])
    | some id =>
      match tm.timers.lookup id with
      | none => some (tm, [.cleared id])
      | some e =>
        let tm := cancel tm id e
        if e.interval then some (tm, [.cleared id])
        else some (stopTimer tm id, [.cleared id])
  else none

/-- `entry.ticker` is nil for a timeout. -/
def clearInterval (tm : TimerManager) (id : Option Int) : Option (TimerManager × List Event) :=
  if tm.main.runsJS then
    match id with
    | none => some (tm, [])
    | some id =>
      match tm.timers.lookup id with
      | none => some (tm, [.cleared id])
      | some e =>
        let tm := cancel tm id e
        if e.interval then some (stopTicker tm id, [.cleared id])
        else some (tm, [.cleared id])
  else none

/-- `ProcessPending` is entered; a closed manager returns at once. -/
def processBegin (tm : TimerManager) : Option (TimerManager × List Event) :=
  match tm.main with
  | .idle | .closed =>
    if tm.closed then some (tm, [.processBegan, .processed false])
    else some ({ tm with main := .processing false }, [.processBegan])
  | _ => none

/-- A closure taken from `tm.pending`, up to its call of `e.fn`. -/
def runClosure (tm : TimerManager) (c : Closure) : TimerManager × List Event :=
  let next := { tm with main := .processing true }
  match c with
  | .timeout id =>
    match tm.timers.lookup id with
    | none => (next, [])
    | some e =>
      let timers := tm.timers.erase id
      if !e.canceled && !tm.closed then
        ({ tm with timers := timers, main := .calling c e.fn }, [.started id e.fn])
      else ({ next with timers := timers }, [.freed id e.fn])
  | .interval id =>
    if tm.closed then (next, [])
    else
      match tm.timers.lookup id with
      | none => (next, [])
      | some e =>
        if !e.canceled then ({ tm with main := .calling c e.fn }, [.started id e.fn])
        else (next, [])

/-- `case fn := <-tm.pending`. -/
def receive (tm : TimerManager) : Option (TimerManager × List Event) :=
  match tm.main with
  | .processing _ =>
    match tm.pending.recv with
    | none => none
    | some (c, pending) =>
      let tm := { tm with pending := pending }
      if tm.closed then some ({ tm with main := .processing true }, [.taken c])
      else
        let r := runClosure tm c
        some (r.1, .taken c :: r.2)
  | _ => none

/-- The callback returns or throws; a timeout's closure then frees it. -/
def callReturn (tm : TimerManager) : Option (TimerManager × List Event) :=
  match tm.main with
  | .calling (.timeout id) fn =>
    some ({ tm with main := .processing true }, [.ended id, .freed id fn])
  | .calling (.interval id) _ => some ({ tm with main := .processing true }, [.ended id])
  | _ => none

/-- The `default` branch: nothing is queued. -/
def processEnd (tm : TimerManager) : Option (TimerManager × List Event) :=
  match tm.main with
  | .processing processed =>
    if tm.pending.buffer.isEmpty then some ({ tm with main := .idle }, [.processed processed])
    else none
  | _ => none

/-- `tm.closed.Store(true)`. -/
def closeBegin (tm : TimerManager) : Option (TimerManager × List Event) :=
  match tm.main with
  | .idle => some ({ tm with closed := true, main := .closing }, [.closeBegan])
  | _ => none

/-- `close(tm.done)`. -/
def closeDone (tm : TimerManager) : Option (TimerManager × List Event) :=
  match tm.main with
  | .closing => some ({ tm with done := true, main := .waiting }, [])
  | _ => none

/-- `tm.wg.Wait()` returns. -/
def closeWait (tm : TimerManager) : Option (TimerManager × List Event) :=
  match tm.main with
  | .waiting => if tm.wg = 0 then some ({ tm with main := .draining }, []) else none
  | _ => none

/-- `case <-tm.pending` of the drain loop. -/
def drain (tm : TimerManager) : Option (TimerManager × List Event) :=
  match tm.main with
  | .draining =>
    match tm.pending.recv with
    | none => none
    | some (c, pending) => some ({ tm with pending := pending }, [.dropped c])
  | _ => none

/-- The drain loop has seen the channel empty: every entry left in the map is
stopped and freed. Go's iteration order is unspecified and nothing depends on it. -/
def freeAll (tm : TimerManager) : Option (TimerManager × List Event) :=
  match tm.main with
  | .draining =>
    if tm.pending.buffer.isEmpty then
      some ({ tm with timers := ∅,
                      afterFuncs := fun id =>
                        if id ∈ tm.timers then (tm.afterFuncs id).stop else tm.afterFuncs id,
                      tickers := fun id =>
                        if id ∈ tm.timers then (tm.tickers id).stop else tm.tickers id,
                      main := .closed },
        tm.timers.entries.map (fun e => .freed e.1 e.2.fn) ++ [.closeReturned])
    else none
  | _ => none

/-- `HasPending`. -/
def hasPending (tm : TimerManager) : Bool :=
  decide (0 < tm.timers.entries.length) || decide (0 < tm.pending.buffer.length)

inductive Action where
  | advance (ms : Nat)
  | expire (id : Int)
  | sendTimeout (id : Int)
  | quitTimeout (id : Int)
  | tick (id : Int)
  | receiveTick (id : Int)
  | checkClosed (id : Int)
  | checkExists (id : Int)
  | sendInterval (id : Int)
  | quitInterval (id : Int)
  | setTimeout (fn : Option Nat) (delay : Option Int)
  | setInterval (fn : Option Nat) (delay : Option Int)
  | clearTimeout (id : Option Int)
  | clearInterval (id : Option Int)
  | processBegin
  | receive
  | callReturn
  | processEnd
  | closeBegin
  | closeDone
  | closeWait
  | drain
  | freeAll

/-- The id given to `clearTimeout` or `clearInterval`. -/
def Action.clears : Action → Option Int
  | .clearTimeout id => id
  | .clearInterval id => id
  | _ => none

/-- One of the four functions is called with no argument. -/
def Action.noArgument : Action → Bool
  | .setTimeout none _ => true
  | .setInterval none _ => true
  | .clearTimeout none => true
  | .clearInterval none => true
  | _ => false

def step (tm : TimerManager) : Action → Option (TimerManager × List Event)
  | .advance ms => some ({ tm with now := tm.now + ms }, [])
  | .expire id => expire tm id
  | .sendTimeout id => sendTimeout tm id
  | .quitTimeout id => quitTimeout tm id
  | .tick id => tick tm id
  | .receiveTick id => receiveTick tm id
  | .checkClosed id => checkClosed tm id
  | .checkExists id => checkExists tm id
  | .sendInterval id => sendInterval tm id
  | .quitInterval id => quitInterval tm id
  | .setTimeout fn delay => setTimeout tm fn delay
  | .setInterval fn delay => setInterval tm fn delay
  | .clearTimeout id => clearTimeout tm id
  | .clearInterval id => clearInterval tm id
  | .processBegin => processBegin tm
  | .receive => receive tm
  | .callReturn => callReturn tm
  | .processEnd => processEnd tm
  | .closeBegin => closeBegin tm
  | .closeDone => closeDone tm
  | .closeWait => closeWait tm
  | .drain => drain tm
  | .freeAll => freeAll tm

/-- A run of a new manager. -/
def Run (as : List Action) (tm : TimerManager) (log : List Event) : Prop :=
  exec step newTimerManager as = some (tm, log)

example : (exec step newTimerManager [.setTimeout (some 7) (some 5), .advance 5, .expire 1,
    .sendTimeout 1, .processBegin, .receive, .callReturn, .processEnd]).map (fun r => r.2) =
    some [.registered 1 7 false 0 5, .fired 1, .queued (.timeout 1), .processBegan,
      .taken (.timeout 1), .started 1 7, .ended 1, .freed 1 7, .processed true] := by
  decide

/-- One constructor for each way a step can go, with its guard. Every later
invariant is proved by cases on it. -/
inductive Transition (tm : TimerManager) : Action → TimerManager → List Event → Prop where
  | advance (ms : Nat) : Transition tm (.advance ms) { tm with now := tm.now + ms } []
  | expire {id : Int} {deadline : Nat} (armed : tm.afterFuncs id = .armed deadline)
      (due : deadline ≤ tm.now) :
      Transition tm (.expire id)
        { tm with afterFuncs := Function.update tm.afterFuncs id .sending } [.fired id]
  | sendTimeout {id : Int} {q : GoChan Closure 256} (sending : tm.afterFuncs id = .sending)
      (send : tm.pending.send (.timeout id) = some q) :
      Transition tm (.sendTimeout id)
        { tm with pending := q, afterFuncs := Function.update tm.afterFuncs id .returned }
        [.queued (.timeout id)]
  | quitTimeout {id : Int} (sending : tm.afterFuncs id = .sending) (done : tm.done = true) :
      Transition tm (.quitTimeout id)
        { tm with afterFuncs := Function.update tm.afterFuncs id .returned } []
  | tick {id : Int} (running : (tm.tickers id).running = true)
      (due : (tm.tickers id).next ≤ tm.now) :
      Transition tm (.tick id)
        { tm with tickers := Function.update tm.tickers id
                    { tm.tickers id with
                      tick := true, next := (tm.tickers id).next + (tm.tickers id).period } }
        [.fired id]
  | receiveTick {id : Int} (selecting : tm.loops id = .selecting)
      (ready : (tm.tickers id).tick = true) :
      Transition tm (.receiveTick id)
        { tm with tickers := Function.update tm.tickers id { tm.tickers id with tick := false },
                  loops := Function.update tm.loops id .ticked } []
  | seeClosed {id : Int} (ticked : tm.loops id = .ticked) (closed : tm.closed = true) :
      Transition tm (.checkClosed id)
        { tm with loops := Function.update tm.loops id .returned, wg := tm.wg - 1 } []
  | seeOpen {id : Int} (ticked : tm.loops id = .ticked) (isOpen : tm.closed = false) :
      Transition tm (.checkClosed id)
        { tm with loops := Function.update tm.loops id .looking } []
  | seeEntry {id : Int} (looking : tm.loops id = .looking) (present : id ∈ tm.timers) :
      Transition tm (.checkExists id)
        { tm with loops := Function.update tm.loops id .sending } []
  | seeNothing {id : Int} (looking : tm.loops id = .looking) (absent : id ∉ tm.timers) :
      Transition tm (.checkExists id)
        { tm with loops := Function.update tm.loops id .returned, wg := tm.wg - 1 } []
  | sendInterval {id : Int} {q : GoChan Closure 256} (sending : tm.loops id = .sending)
      (send : tm.pending.send (.interval id) = some q) :
      Transition tm (.sendInterval id)
        { tm with pending := q, loops := Function.update tm.loops id .selecting }
        [.queued (.interval id)]
  | quitInterval {id : Int} (done : tm.done = true)
      (waiting : tm.loops id = .selecting ∨ tm.loops id = .sending) :
      Transition tm (.quitInterval id)
        { tm with loops := Function.update tm.loops id .returned, wg := tm.wg - 1 } []
  | noArgument {a : Action} (call : a.noArgument = true) (js : tm.main.runsJS = true) :
      Transition tm a tm []
  | setTimeout {fn : Nat} {delay : Option Int} (js : tm.main.runsJS = true) :
      Transition tm (.setTimeout (some fn) delay)
        { tm with counter := tm.counter + 1,
                  timers := tm.timers.insert (tm.counter + 1)
                    ⟨fn, false, timeoutDelay delay, false⟩,
                  afterFuncs := Function.update tm.afterFuncs (tm.counter + 1)
                    (.armed (tm.now + timeoutDelay delay)) }
        [.registered (tm.counter + 1) fn false tm.now (timeoutDelay delay)]
  | setInterval {fn : Nat} {delay : Option Int} (js : tm.main.runsJS = true) :
      Transition tm (.setInterval (some fn) delay)
        { tm with counter := tm.counter + 1,
                  timers := tm.timers.insert (tm.counter + 1)
                    ⟨fn, true, intervalDelay delay, false⟩,
                  tickers := Function.update tm.tickers (tm.counter + 1)
                    ⟨true, tm.now + intervalDelay delay, intervalDelay delay, false⟩,
                  loops := Function.update tm.loops (tm.counter + 1) .selecting,
                  wg := tm.wg + 1 }
        [.registered (tm.counter + 1) fn true tm.now (intervalDelay delay)]
  | clearMiss {a : Action} {id : Int} (call : a.clears = some id) (js : tm.main.runsJS = true)
      (miss : tm.timers.lookup id = none) : Transition tm a tm [.cleared id]
  | clearOther {a : Action} {id : Int} {e : TimerEntry} (call : a.clears = some id)
      (js : tm.main.runsJS = true) (found : tm.timers.lookup id = some e) :
      Transition tm a (cancel tm id e) [.cleared id]
  | clearTimeout {id : Int} {e : TimerEntry} (js : tm.main.runsJS = true)
      (found : tm.timers.lookup id = some e) (kind : e.interval = false) :
      Transition tm (.clearTimeout (some id)) (stopTimer (cancel tm id e) id) [.cleared id]
  | clearInterval {id : Int} {e : TimerEntry} (js : tm.main.runsJS = true)
      (found : tm.timers.lookup id = some e) (kind : e.interval = true) :
      Transition tm (.clearInterval (some id)) (stopTicker (cancel tm id e) id) [.cleared id]
  | processClosed (after : tm.main = .idle ∨ tm.main = .closed) (closed : tm.closed = true) :
      Transition tm .processBegin tm [.processBegan, .processed false]
  | processBegin (idle : tm.main = .idle ∨ tm.main = .closed) (isOpen : tm.closed = false) :
      Transition tm .processBegin { tm with main := .processing false } [.processBegan]
  | skip {c : Closure} {q : GoChan Closure 256} {b : Bool} (looping : tm.main = .processing b)
      (recv : tm.pending.recv = some (c, q))
      (nothing : tm.closed = true ∨ tm.timers.lookup c.id = none ∨
        ∃ e, c = .interval c.id ∧ tm.timers.lookup c.id = some e ∧ e.canceled = true) :
      Transition tm .receive { tm with pending := q, main := .processing true } [.taken c]
  | startTimeout {id : Int} {e : TimerEntry} {q : GoChan Closure 256} {b : Bool}
      (looping : tm.main = .processing b) (recv : tm.pending.recv = some (.timeout id, q))
      (isOpen : tm.closed = false) (found : tm.timers.lookup id = some e)
      (live : e.canceled = false) :
      Transition tm .receive
        { tm with pending := q, timers := tm.timers.erase id, main := .calling (.timeout id) e.fn }
        [.taken (.timeout id), .started id e.fn]
  | freeTimeout {id : Int} {e : TimerEntry} {q : GoChan Closure 256} {b : Bool}
      (looping : tm.main = .processing b) (recv : tm.pending.recv = some (.timeout id, q))
      (isOpen : tm.closed = false) (found : tm.timers.lookup id = some e)
      (canceled : e.canceled = true) :
      Transition tm .receive
        { tm with pending := q, timers := tm.timers.erase id, main := .processing true }
        [.taken (.timeout id), .freed id e.fn]
  | startInterval {id : Int} {e : TimerEntry} {q : GoChan Closure 256} {b : Bool}
      (looping : tm.main = .processing b) (recv : tm.pending.recv = some (.interval id, q))
      (isOpen : tm.closed = false) (found : tm.timers.lookup id = some e)
      (live : e.canceled = false) :
      Transition tm .receive { tm with pending := q, main := .calling (.interval id) e.fn }
        [.taken (.interval id), .started id e.fn]
  | timeoutReturn {id : Int} {fn : Nat} (calling : tm.main = .calling (.timeout id) fn) :
      Transition tm .callReturn { tm with main := .processing true } [.ended id, .freed id fn]
  | intervalReturn {id : Int} {fn : Nat} (calling : tm.main = .calling (.interval id) fn) :
      Transition tm .callReturn { tm with main := .processing true } [.ended id]
  | processEnd {b : Bool} (looping : tm.main = .processing b) (empty : tm.pending.buffer = []) :
      Transition tm .processEnd { tm with main := .idle } [.processed b]
  | closeBegin (idle : tm.main = .idle) :
      Transition tm .closeBegin { tm with closed := true, main := .closing } [.closeBegan]
  | closeDone (closing : tm.main = .closing) :
      Transition tm .closeDone { tm with done := true, main := .waiting } []
  | closeWait (waiting : tm.main = .waiting) (zero : tm.wg = 0) :
      Transition tm .closeWait { tm with main := .draining } []
  | drain {c : Closure} {q : GoChan Closure 256} (draining : tm.main = .draining)
      (recv : tm.pending.recv = some (c, q)) :
      Transition tm .drain { tm with pending := q } [.dropped c]
  | freeAll (draining : tm.main = .draining) (empty : tm.pending.buffer = []) :
      Transition tm .freeAll
        { tm with timers := ∅,
                  afterFuncs := fun id =>
                    if id ∈ tm.timers then (tm.afterFuncs id).stop else tm.afterFuncs id,
                  tickers := fun id =>
                    if id ∈ tm.timers then (tm.tickers id).stop else tm.tickers id,
                  main := .closed }
        (tm.timers.entries.map (fun e => Event.freed e.1 e.2.fn) ++ [.closeReturned])

theorem runClosure_transition {tm : TimerManager} {c : Closure} {q : GoChan Closure 256} {b : Bool}
    (looping : tm.main = .processing b) (recv : tm.pending.recv = some (c, q))
    (isOpen : tm.closed = false) :
    Transition tm .receive (runClosure { tm with pending := q } c).1
      (.taken c :: (runClosure { tm with pending := q } c).2) := by
  cases c with
  | timeout id =>
    cases found : tm.timers.lookup id with
    | none =>
      simp only [runClosure, found]
      exact .skip looping recv (.inr (.inl found))
    | some e =>
      simp only [runClosure, found]
      cases live : e.canceled with
      | false =>
        rw [if_pos (by simp [isOpen])]
        exact .startTimeout looping recv isOpen found live
      | true =>
        rw [if_neg (by simp)]
        exact .freeTimeout looping recv isOpen found live
  | interval id =>
    simp only [runClosure, if_neg (Bool.eq_false_iff.mp isOpen)]
    cases found : tm.timers.lookup id with
    | none => exact .skip looping recv (.inr (.inl found))
    | some e =>
      cases live : e.canceled with
      | false =>
        simp only [live, Bool.not_false, if_true]
        exact .startInterval looping recv isOpen found live
      | true =>
        simp only [live, Bool.not_true, Bool.false_eq_true, if_false]
        exact .skip looping recv (.inr (.inr ⟨e, rfl, found, live⟩))

theorem step_transition {tm tm' : TimerManager} {a : Action} {ev : List Event}
    (h : step tm a = some (tm', ev)) : Transition tm a tm' ev := by
  cases a with
  | advance ms =>
    obtain ⟨rfl, rfl⟩ := Prod.mk.inj (Option.some.inj h)
    exact .advance ms
  | expire id =>
    simp only [step, expire] at h
    split at h <;> [split at h; skip] <;> simp at h
    obtain ⟨rfl, rfl⟩ := h
    exact .expire ‹_› ‹_›
  | sendTimeout id =>
    simp only [step, sendTimeout] at h
    split at h <;> [split at h; skip] <;> simp at h
    obtain ⟨rfl, rfl⟩ := h
    exact .sendTimeout ‹_› ‹_›
  | quitTimeout id =>
    simp only [step, quitTimeout] at h
    split at h <;> [split at h; skip] <;> simp at h
    obtain ⟨rfl, rfl⟩ := h
    exact .quitTimeout ‹_› ‹_›
  | tick id =>
    simp only [step, tick] at h
    split at h <;> simp at h
    rename_i hg
    obtain ⟨rfl, rfl⟩ := h
    exact .tick hg.1 hg.2
  | receiveTick id =>
    simp only [step, receiveTick] at h
    split at h <;> simp at h
    rename_i hg
    obtain ⟨rfl, rfl⟩ := h
    exact .receiveTick hg.1 hg.2
  | checkClosed id =>
    simp only [step, checkClosed] at h
    split at h <;> [split at h; skip] <;> simp at h <;> obtain ⟨rfl, rfl⟩ := h
    · exact .seeClosed ‹_› ‹_›
    · exact .seeOpen ‹_› (Bool.eq_false_iff.mpr ‹_›)
  | checkExists id =>
    simp only [step, checkExists] at h
    split at h <;> [split at h; skip] <;> simp at h <;> obtain ⟨rfl, rfl⟩ := h
    · exact .seeEntry ‹_› ‹_›
    · exact .seeNothing ‹_› ‹_›
  | sendInterval id =>
    simp only [step, sendInterval] at h
    split at h <;> [split at h; skip] <;> simp at h
    obtain ⟨rfl, rfl⟩ := h
    exact .sendInterval ‹_› ‹_›
  | quitInterval id =>
    simp only [step, quitInterval] at h
    split at h <;> simp at h
    rename_i hg
    obtain ⟨rfl, rfl⟩ := h
    exact .quitInterval hg.1 hg.2
  | setTimeout fn delay =>
    simp only [step, setTimeout] at h
    split at h <;> [split at h; skip] <;> simp at h <;> obtain ⟨rfl, rfl⟩ := h
    · exact .noArgument rfl ‹_›
    · exact .setTimeout ‹_›
  | setInterval fn delay =>
    simp only [step, setInterval] at h
    split at h <;> [split at h; skip] <;> simp at h <;> obtain ⟨rfl, rfl⟩ := h
    · exact .noArgument rfl ‹_›
    · exact .setInterval ‹_›
  | clearTimeout id =>
    simp only [step, clearTimeout] at h
    split at h
    · split at h
      · simp at h; obtain ⟨rfl, rfl⟩ := h; exact .noArgument rfl ‹_›
      · split at h
        · simp at h; obtain ⟨rfl, rfl⟩ := h; exact .clearMiss rfl ‹_› ‹_›
        · split at h <;> simp at h <;> obtain ⟨rfl, rfl⟩ := h
          · exact .clearOther rfl ‹_› ‹_›
          · exact .clearTimeout ‹_› ‹_› (Bool.eq_false_iff.mpr ‹_›)
    · simp at h
  | clearInterval id =>
    simp only [step, clearInterval] at h
    split at h
    · split at h
      · simp at h; obtain ⟨rfl, rfl⟩ := h; exact .noArgument rfl ‹_›
      · split at h
        · simp at h; obtain ⟨rfl, rfl⟩ := h; exact .clearMiss rfl ‹_› ‹_›
        · split at h <;> simp at h <;> obtain ⟨rfl, rfl⟩ := h
          · exact .clearInterval ‹_› ‹_› ‹_›
          · exact .clearOther rfl ‹_› ‹_›
    · simp at h
  | processBegin =>
    simp only [step, processBegin] at h
    split at h <;> [split at h; split at h; skip] <;> simp at h <;> obtain ⟨rfl, rfl⟩ := h
    · exact .processClosed (.inl ‹_›) ‹_›
    · exact .processBegin (.inl ‹_›) (Bool.eq_false_iff.mpr ‹_›)
    · exact .processClosed (.inr ‹_›) ‹_›
    · exact .processBegin (.inr ‹_›) (Bool.eq_false_iff.mpr ‹_›)
  | receive =>
    simp only [step, receive] at h
    split at h <;> [split at h; skip] <;> try simp at h
    rename_i b looping _ c q recv
    split at h
    · simp at h
      obtain ⟨rfl, rfl⟩ := h
      exact .skip looping recv (.inl ‹_›)
    · simp at h
      obtain ⟨rfl, rfl⟩ := h
      exact runClosure_transition looping recv (Bool.eq_false_iff.mpr ‹_›)
  | callReturn =>
    simp only [step, callReturn] at h
    split at h <;> simp at h <;> obtain ⟨rfl, rfl⟩ := h
    · exact .timeoutReturn ‹_›
    · exact .intervalReturn ‹_›
  | processEnd =>
    simp only [step, processEnd] at h
    split at h <;> [split at h; skip] <;> simp at h
    obtain ⟨rfl, rfl⟩ := h
    exact .processEnd ‹_› (List.isEmpty_iff.mp ‹_›)
  | closeBegin =>
    simp only [step, closeBegin] at h
    split at h <;> simp at h
    obtain ⟨rfl, rfl⟩ := h
    exact .closeBegin ‹_›
  | closeDone =>
    simp only [step, closeDone] at h
    split at h <;> simp at h
    obtain ⟨rfl, rfl⟩ := h
    exact .closeDone ‹_›
  | closeWait =>
    simp only [step, closeWait] at h
    split at h <;> [split at h; skip] <;> simp at h
    obtain ⟨rfl, rfl⟩ := h
    exact .closeWait ‹_› ‹_›
  | drain =>
    simp only [step, drain] at h
    split at h <;> [split at h; skip] <;> simp at h
    obtain ⟨rfl, rfl⟩ := h
    exact .drain ‹_› ‹_›
  | freeAll =>
    simp only [step, freeAll] at h
    split at h <;> [split at h; skip] <;> simp at h
    obtain ⟨rfl, rfl⟩ := h
    exact .freeAll ‹_› (List.isEmpty_iff.mp ‹_›)

end Timers
