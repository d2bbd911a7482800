import Goqjs.Runs
import Goqjs.GoChan
import Mathlib.Logic.Function.Basic

/-!
# The fetch manager

`FetchManager` of polyfill/fetch.go with the goroutines that `fetch` starts. A
fetch is known by its number; its two promise handles and its channel `done`
are indexed by it. What `net/http` answers is part of the action, and so are
the points at which JavaScript calls `fetch`. The event loop that owns the
manager may receive from `NotifyChan` and call `ProcessPending` as it likes.
-/

namespace Fetches

open Runs

/-- What a worker reads off the `http.Response`. -/
structure Response where
  statusCode : Int
  status : String
  header : List (String × List String)
  deriving DecidableEq

structure HttpResult where
  statusCode : Int
  statusText : String
  urlStr : String
  headers : List (String × List String)
  body : List UInt8
  errMsg : String
  isError : Bool
  deriving DecidableEq

/-- `httpResult{errMsg: …, isError: true}`. -/
def HttpResult.failed (errMsg : String) : HttpResult := ⟨0, "", "", [], [], errMsg, true⟩

def HttpResult.ok (r : Response) (urlStr : String) (body : List UInt8) : HttpResult :=
  ⟨r.statusCode, r.status, urlStr, r.header, body, "", false⟩

/-- The goroutine of one fetch: before `http.NewRequest`, `client.Do` and
`io.ReadAll`, at the two sends, at its return. `body` tells whether
`defer resp.Body.Close()` has been reached. -/
inductive Worker where
  | unset
  | building
  | doing
  | reading (resp : Response)
  | delivering (body : Bool) (result : HttpResult)
  | signalling (body : Bool)
  | returning (body : Bool)
  | returned
  deriving DecidableEq

/-- The worker has not got its `httpResult` yet. -/
def Worker.preparing : Worker → Bool
  | .building => true
  | .doing => true
  | .reading _ => true
  | _ => false

/-- The worker has sent its token. -/
def Worker.signalled : Worker → Bool
  | .returning _ => true
  | .returned => true
  | _ => false

/-- Where the event-loop thread is: between its calls, in `ProcessPending` about to
examine the next entry, building the response of the entry it has received, inside
the call of its `resolve` or `reject`, in `Close`, or past it. -/
inductive Main where
  | idle
  | walking (snapshot stillPending : List Nat) (processed : Bool)
  | received (p : Nat) (result : HttpResult) (snapshot stillPending : List Nat)
  | settling (p : Nat) (snapshot stillPending : List Nat)
  | closing (rest : List Nat)
  | closed
  deriving DecidableEq

/-- JavaScript runs between the calls of the event loop and while a response is
built and handed over. -/
def Main.runsJS : Main → Bool
  | .idle => true
  | .received _ _ _ _ => true
  | .settling _ _ _ => true
  | _ => false

structure FetchManager where
  pending : List Nat
  notify : GoChan Unit 64
  fetches : Nat
  done : Nat → GoChan HttpResult 1
  urls : Nat → String
  workers : Nat → Worker
  main : Main

inductive Handle where
  | resolve
  | reject
  deriving DecidableEq

inductive Event where
  | fetched (p : Nat)
  | threw (message : String)
  | delivered (p : Nat) (result : HttpResult)
  | signalled (p : Nat)
  | bodyClosed (p : Nat)
  | tokenTaken
  | processBegan
  | received (p : Nat)
  | called (p : Nat) (h : Handle) (result : HttpResult)
  | freed (p : Nat) (h : Handle)
  | processed (any : Bool)
  | closeBegan
  | closeReturned
  deriving DecidableEq

/-- `NewFetchManager`. -/
def newFetchManager : FetchManager where
  pending := []
  notify := GoChan.empty Unit 64
  fetches := 0
  done := fun _ => GoChan.empty HttpResult 1
  urls := fun _ => ""
  workers := fun _ => .unset
  main := .idle

def setWorker (fm : FetchManager) (p : Nat) (w : Worker) : FetchManager :=
  { fm with workers := Function.update fm.workers p w }

/-- `http.NewRequest` fails with the given text or succeeds. -/
def newRequest (fm : FetchManager) (p : Nat) (err : Option String) :
    Option (FetchManager × List Event) :=
  match fm.workers p with
  | .building =>
    match err with
    | some err => some (setWorker fm p (.delivering false (.failed ("fetch error: " ++ err))), [])
    | none => some (setWorker fm p .doing, [])
  | _ => none

/-- `client.Do`. -/
def doRequest (fm : FetchManager) (p : Nat) (answer : Except String Response) :
    Option (FetchManager × List Event) :=
  match fm.workers p with
  | .doing =>
    match answer with
    | .error err =>
      some (setWorker fm p (.delivering false (.failed ("fetch error: " ++ err))), [])
    | .ok resp => some (setWorker fm p (.reading resp), [])
  | _ => none

/-- `io.ReadAll(resp.Body)`. -/
def readAll (fm : FetchManager) (p : Nat) (answer : Except String (List UInt8)) :
    Option (FetchManager × List Event) :=
  match fm.workers p with
  | .reading resp =>
    match answer with
    | .error err =>
      some (setWorker fm p (.delivering true (.failed ("fetch read body error: " ++ err))), [])
    | .ok body => some (setWorker fm p (.delivering true (.ok resp (fm.urls p) body)), [])
  | _ => none

/-- `doneCh <- httpResult{…}`. -/
def deliver (fm : FetchManager) (p : Nat) : Option (FetchManager × List Event) :=
  match fm.workers p with
  | .delivering body result =>
    match (fm.done p).send result with
    | some ch =>
      some ({ setWorker fm p (.signalling body) with done := Function.update fm.done p ch },
        [.delivered p result])
    | none => none
  | _ => none

/-- `fm.notify <- struct{}{}`. -/
def signal (fm : FetchManager) (p : Nat) : Option (FetchManager × List Event) :=
  match fm.workers p with
  | .signalling body =>
    match fm.notify.send () with
    | some notify => some ({ setWorker fm p (.returning body) with notify := notify },
        [.signalled p])
    | none => none
  | _ => none

/-- The return, with the deferred `resp.Body.Close()` where it was reached. -/
def finish (fm : FetchManager) (p : Nat) : Option (FetchManager × List Event) :=
  match fm.workers p with
  | .returning body => some (setWorker fm p .returned, if body then [.bodyClosed p] else [])
  | _ => none

/-- `fetch` as JavaScript calls it; `url` is its first argument where present. -/
def fetch (fm : FetchManager) (url : Option String) : Option (FetchManager × List Event) :=
  if fm.main.runsJS then
    match url with
    | none => some (fm, [.threw "fetch requires at least 1 argument"])
    | some url =>
      let p := fm.fetches
      some ({ fm with pending := fm.pending ++ [p],
                      fetches := p + 1,
                      urls := Function.update fm.urls p url,
                      workers := Function.update fm.workers p .building },
        [.fetched p])
  else none

/-- `<-fm.NotifyChan()`. -/
def takeToken (fm : FetchManager) : Option (FetchManager × List Event) :=
  match fm.main with
  | .idle | .closed =>
    match fm.notify.recv with
    | some (_, notify) => some ({ fm with notify := notify }, [.tokenTaken])
    | none => none
  | _ => none

/-- The beginning of `ProcessPending`, up to the loop. -/
def processBegin (fm : FetchManager) : Option (FetchManager × List Event) :=
  match fm.main with
  | .idle | .closed =>
    if fm.pending.length = 0 then
      some (fm, [.processBegan, .processed false])
    else some ({ fm with pending := [], main := .walking fm.pending [] false }, [.processBegan])
  | _ => none

/-- The `select` of the loop: receive from `p.done` or keep `p`. -/
def examine (fm : FetchManager) : Option (FetchManager × List Event) :=
  match fm.main with
  | .walking (p :: rest) still processed =>
    match (fm.done p).recv with
    | some (result, ch) =>
      some ({ fm with done := Function.update fm.done p ch,
                      main := .received p result rest still }, [.received p])
    | none => some ({ fm with main := .walking rest (still ++ [p]) processed }, [])
  | _ => none

/-- `p.reject.Call` with the message or `p.resolve.Call` with the response object. -/
def settle (fm : FetchManager) : Option (FetchManager × List Event) :=
  match fm.main with
  | .received p result rest still =>
    some ({ fm with main := .settling p rest still },
      [.called p (if result.isError then .reject else .resolve) result])
  | _ => none

/-- `p.resolve.Free()` and `p.reject.Free()` after the call. -/
def release (fm : FetchManager) : Option (FetchManager × List Event) :=
  match fm.main with
  | .settling p rest still =>
    some ({ fm with main := .walking rest still true }, [.freed p .resolve, .freed p .reject])
  | _ => none

/-- The end of `ProcessPending`. -/
def processEnd (fm : FetchManager) : Option (FetchManager × List Event) :=
  match fm.main with
  | .walking [] still processed =>
    some ({ fm with pending := if still.length > 0 then fm.pending ++ still else fm.pending,
                    main := .idle }, [.processed processed])
  | _ => none

/-- `HasPending`. -/
def hasPending (fm : FetchManager) : Bool := decide (0 < fm.pending.length)

def closeBegin (fm : FetchManager) : Option (FetchManager × List Event) :=
  match fm.main with
  | .idle => some ({ fm with main := .closing fm.pending }, [.closeBegan])
  | _ => none

/-- `select { case <-p.done: default: }`. -/
def drain (ch : GoChan HttpResult 1) : GoChan HttpResult 1 :=
  match ch.recv with
  | some (_, ch) => ch
  | none => ch

/-- One iteration of `Close`: the channel is drained and the handles are freed. -/
def closeNext (fm : FetchManager) : Option (FetchManager × List Event) :=
  match fm.main with
  | .closing (p :: rest) =>
    some ({ fm with done := Function.update fm.done p (drain (fm.done p)), main := .closing rest },
      [.freed p .resolve, .freed p .reject])
  | _ => none

def closeEnd (fm : FetchManager) : Option (FetchManager × List Event) :=
  match fm.main with
  | .closing [] => some ({ fm with pending := [], main := .closed }, [.closeReturned])
  | _ => none

inductive Action where
  | fetch (url : Option String)
  | newRequest (p : Nat) (err : Option String)
  | doRequest (p : Nat) (answer : Except String Response)
  | readAll (p : Nat) (answer : Except String (List UInt8))
  | deliver (p : Nat)
  | signal (p : Nat)
  | finish (p : Nat)
  | takeToken
  | processBegin
  | examine
  | settle
  | release
  | processEnd
  | closeBegin
  | closeNext
  | closeEnd

/-- The fetch whose worker asks `net/http` something. -/
def Action.worker : Action → Option Nat
  | .newRequest p _ => some p
  | .doRequest p _ => some p
  | .readAll p _ => some p
  | _ => none

def step (fm : FetchManager) : Action → Option (FetchManager × List Event)
  | .fetch url => fetch fm url
  | .newRequest p err => newRequest fm p err
  | .doRequest p answer => doRequest fm p answer
  | .readAll p answer => readAll fm p answer
  | .deliver p => deliver fm p
  | .signal p => signal fm p
  | .finish p => finish fm p
  | .takeToken => takeToken fm
  | .processBegin => processBegin fm
  | .examine => examine fm
  | .settle => settle fm
  | .release => release fm
  | .processEnd => processEnd fm
  | .closeBegin => closeBegin fm
  | .closeNext => closeNext fm
  | .closeEnd => closeEnd fm

/-- A run of a new manager. -/
def Run (as : List Action) (fm : FetchManager) (log : List Event) : Prop :=
  exec step newFetchManager as = some (fm, log)

theorem drain_buffer (ch : GoChan HttpResult 1) : (drain ch).buffer = [] := by
  unfold drain
  split
  · rename_i ch' recv
    have one := ch.bounded
    rw [GoChan.recv_eq_some.mp recv] at one
    simpa using one
  · exact GoChan.recv_eq_none.mp ‹_›

/-- One constructor for each way a step can go, with its guard. -/
inductive Transition (fm : FetchManager) : Action → FetchManager → List Event → Prop where
  | noArgument (js : fm.main.runsJS = true) :
      Transition fm (.fetch none) fm [.threw "fetch requires at least 1 argument"]
  | fetch {url : String} (js : fm.main.runsJS = true) :
      Transition fm (.fetch (some url))
        { fm with pending := fm.pending ++ [fm.fetches],
                  fetches := fm.fetches + 1,
                  urls := Function.update fm.urls fm.fetches url,
                  workers := Function.update fm.workers fm.fetches .building }
        [.fetched fm.fetches]
  | prepare {a : Action} {p : Nat} {w : Worker} (work : a.worker = some p)
      (before : (fm.workers p).preparing = true)
      (after : w.preparing = true ∨ ∃ body result, w = .delivering body result) :
      Transition fm a (setWorker fm p w) []
  | deliver {p : Nat} {body : Bool} {result : HttpResult} {ch : GoChan HttpResult 1}
      (at_ : fm.workers p = .delivering body result) (send : (fm.done p).send result = some ch) :
      Transition fm (.deliver p)
        { setWorker fm p (.signalling body) with done := Function.update fm.done p ch }
        [.delivered p result]
  | signal {p : Nat} {body : Bool} {notify : GoChan Unit 64}
      (at_ : fm.workers p = .signalling body) (send : fm.notify.send () = some notify) :
      Transition fm (.signal p) { setWorker fm p (.returning body) with notify := notify }
        [.signalled p]
  | finish {p : Nat} {body : Bool} (at_ : fm.workers p = .returning body) :
      Transition fm (.finish p) (setWorker fm p .returned) (if body then [.bodyClosed p] else [])
  | takeToken {notify : GoChan Unit 64} (at_ : fm.main = .idle ∨ fm.main = .closed)
      (recv : fm.notify.recv = some ((), notify)) :
      Transition fm .takeToken { fm with notify := notify } [.tokenTaken]
  | processNothing (at_ : fm.main = .idle ∨ fm.main = .closed) (empty : fm.pending = []) :
      Transition fm .processBegin fm [.processBegan, .processed false]
  | processBegin (at_ : fm.main = .idle ∨ fm.main = .closed) (some : fm.pending ≠ []) :
      Transition fm .processBegin
        { fm with pending := [], main := .walking fm.pending [] false } [.processBegan]
  | receive {p : Nat} {rest still : List Nat} {processed : Bool} {result : HttpResult}
      {ch : GoChan HttpResult 1} (at_ : fm.main = .walking (p :: rest) still processed)
      (recv : (fm.done p).recv = some (result, ch)) :
      Transition fm .examine
        { fm with done := Function.update fm.done p ch,
                  main := .received p result rest still } [.received p]
  | keep {p : Nat} {rest still : List Nat} {processed : Bool}
      (at_ : fm.main = .walking (p :: rest) still processed) (empty : (fm.done p).buffer = []) :
      Transition fm .examine { fm with main := .walking rest (still ++ [p]) processed } []
  | settle {p : Nat} {result : HttpResult} {rest still : List Nat}
      (at_ : fm.main = .received p result rest still) :
      Transition fm .settle { fm with main := .settling p rest still }
        [.called p (if result.isError then .reject else .resolve) result]
  | release {p : Nat} {rest still : List Nat} (at_ : fm.main = .settling p rest still) :
      Transition fm .release { fm with main := .walking rest still true }
        [.freed p .resolve, .freed p .reject]
  | processEnd {still : List Nat} {processed : Bool} (at_ : fm.main = .walking [] still processed) :
      Transition fm .processEnd
        { fm with pending := fm.pending ++ still, main := .idle } [.processed processed]
  | closeBegin (at_ : fm.main = .idle) :
      Transition fm .closeBegin { fm with main := .closing fm.pending } [.closeBegan]
  | closeNext {p : Nat} {rest : List Nat} (at_ : fm.main = .closing (p :: rest)) :
      Transition fm .closeNext
        { fm with done := Function.update fm.done p (drain (fm.done p)), main := .closing rest }
        [.freed p .resolve, .freed p .reject]
  | closeEnd (at_ : fm.main = .closing []) :
      Transition fm .closeEnd { fm with pending := [], main := .closed } [.closeReturned]

theorem step_transition {fm fm' : FetchManager} {a : Action} {ev : List Event}
    (h : step fm a = some (fm', ev)) : Transition fm a fm' ev := by
  cases a with
  | fetch url =>
    simp only [step, fetch] at h
    split at h <;> [split at h; skip] <;> simp at h <;> obtain ⟨rfl, rfl⟩ := h
    · exact .noArgument ‹_›
    · exact .fetch ‹_›
  | newRequest p err =>
    simp only [step, newRequest] at h
    split at h <;> [split at h; skip] <;> simp at h <;> obtain ⟨rfl, rfl⟩ := h
    · exact .prepare rfl (by simp [*, Worker.preparing]) (.inr ⟨_, _, rfl⟩)
    · exact .prepare rfl (by simp [*, Worker.preparing]) (.inl rfl)
  | doRequest p answer =>
    simp only [step, doRequest] at h
    split at h <;> [split at h; skip] <;> simp at h <;> obtain ⟨rfl, rfl⟩ := h
    · exact .prepare rfl (by simp [*, Worker.preparing]) (.inr ⟨_, _, rfl⟩)
    · exact .prepare rfl (by simp [*, Worker.preparing]) (.inl rfl)
  | readAll p answer =>
    simp only [step, readAll] at h
    split at h <;> [split at h; skip] <;> simp at h <;> obtain ⟨rfl, rfl⟩ := h
    · exact .prepare rfl (by simp [*, Worker.preparing]) (.inr ⟨_, _, rfl⟩)
    · exact .prepare rfl (by simp [*, Worker.preparing]) (.inr ⟨_, _, rfl⟩)
  | deliver p =>
    simp only [step, deliver] at h
    split at h <;> [split at h; skip] <;> simp at h
    obtain ⟨rfl, rfl⟩ := h
    exact .deliver ‹_› ‹_›
  | signal p =>
    simp only [step, signal] at h
    split at h <;> [split at h; skip] <;> simp at h
    obtain ⟨rfl, rfl⟩ := h
    exact .signal ‹_› ‹_›
  | finish p =>
    simp only [step, finish] at h
    split at h <;> simp at h
    obtain ⟨rfl, rfl⟩ := h
    exact .finish ‹_›
  | takeToken =>
    simp only [step, takeToken] at h
    split at h <;> [split at h; split at h; skip] <;> simp at h <;> obtain ⟨rfl, rfl⟩ := h
    · exact .takeToken (.inl ‹_›) ‹_›
    · exact .takeToken (.inr ‹_›) ‹_›
  | processBegin =>
    simp only [step, processBegin] at h
    split at h <;> [split at h; split at h; skip] <;> simp at h <;> obtain ⟨rfl, rfl⟩ := h
    · exact .processNothing (.inl ‹_›) (List.length_eq_zero_iff.mp ‹_›)
    · exact .processBegin (.inl ‹_›) (fun h => absurd (List.length_eq_zero_iff.mpr h) ‹_›)
    · exact .processNothing (.inr ‹_›) (List.length_eq_zero_iff.mp ‹_›)
    · exact .processBegin (.inr ‹_›) (fun h => absurd (List.length_eq_zero_iff.mpr h) ‹_›)
  | examine =>
    simp only [step, examine] at h
    split at h <;> [split at h; skip] <;> simp at h <;> obtain ⟨rfl, rfl⟩ := h
    · exact .receive ‹_› ‹_›
    · exact .keep ‹_› (GoChan.recv_eq_none.mp ‹_›)
  | settle =>
    simp only [step, settle] at h
    split at h <;> simp at h
    obtain ⟨rfl, rfl⟩ := h
    exact .settle ‹_›
  | release =>
    simp only [step, release] at h
    split at h <;> simp at h
    obtain ⟨rfl, rfl⟩ := h
    exact .release ‹_›
  | processEnd =>
    simp only [step, processEnd] at h
    split at h <;> simp at h
    rename_i still processed at_
    obtain ⟨rfl, rfl⟩ := h
    have same : (if 0 < still.length then fm.pending ++ still else fm.pending) =
        fm.pending ++ still := by
      split
      · rfl
      · rename_i none
        rw [List.length_eq_zero_iff.mp (Nat.eq_zero_of_not_pos none), List.append_nil]
    rw [same]
    exact .processEnd at_
  | closeBegin =>
    simp only [step, closeBegin] at h
    split at h <;> simp at h
    obtain ⟨rfl, rfl⟩ := h
    exact .closeBegin ‹_›
  | closeNext =>
    simp only [step, closeNext] at h
    split at h <;> simp at h
    obtain ⟨rfl, rfl⟩ := h
    exact .closeNext ‹_›
  | closeEnd =>
    simp only [step, closeEnd] at h
    split at h <;> simp at h
    obtain ⟨rfl, rfl⟩ := h
    exact .closeEnd ‹_›

end Fetches
