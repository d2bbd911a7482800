import Goqjs.CallReadings
import Goqjs.PolyfillFunctions

/-!
# Exceptions of conversions

What each function reads of its arguments, and when it throws an error of its own after
that. An exception of a conversion never reaches the caller; and the test of an
argument for bytes leaves one pending also where the function then goes on with text.
-/

namespace Polyfill

open Quickjs Qjs NetUrl

/-- The conversions of a function's arguments, and the values read for which it throws an error of
its own; `takes` says that it takes the pending exception first. -/
structure Reading (O : Type) where
  Out : Type
  read : Call O (Effect O) Out
  refuses : Out → Prop
  takes : Bool

namespace Reading

variable {O α : Type}

def nothing : Reading O := ⟨Unit, pure (), fun _ => False, false⟩

/-- Too few arguments. -/
def tooFew : Reading O := ⟨Unit, pure (), fun _ => True, false⟩

/-- Whatever is read, the function returns. -/
def all (read : Call O (Effect O) α) : Reading O := ⟨α, read, fun _ => False, false⟩

/-- The state in which the function reads. -/
def before {E : Engine} (r : Reading E.Obj) (s : Rt E) : Rt E :=
  if r.takes then { s with pending := none } else s

/-- Every conversion succeeds; and unless the function throws an error of its own, its reading
leaves nothing pending: of the exception pending before, the failing tests for bytes and the user
code of converted objects, the last to change what is pending leaves none. -/
def Holds {E : Engine} (r : Reading E.Obj) (s : Rt E) : Prop :=
  Converts (run E r.read (r.before s)) ∧ ∀ a ∈ (run E r.read (r.before s)).result,
    r.refuses a ∨ leftPending r.read (r.before s) = none

/-- Without user code: every argument that the function tests for bytes has some, and no exception
was pending. -/
theorem holds_iff_of_plain {E : Engine} {r : Reading E.Obj} {s : Rt E} (reader : Reader r.read)
    (plain : ∀ x ∈ asks E r.read (r.before s).world, x.1.runs = false) :
    r.Holds s ↔ Converts (run E r.read (r.before s)) ∧ ∀ a ∈ (run E r.read (r.before s)).result,
      r.refuses a ∨ (FindsBytes (run E r.read (r.before s)) ∧ (r.before s).pending = none) := by
  refine and_congr_right fun converts => forall₂_congr fun a _ => or_congr_right ?_
  rw [reader.leftPending_eq_none_iff _ plain]
  refine and_congr_left fun _ => ⟨fun none => ?_, raised_eq_nil converts⟩
  intro r hr
  rw [none] at hr
  cases hr

end Reading

section Table

variable {O : Type}

def isError {ε α : Type} (r : Except ε α) : Prop := ∃ e, r = .error e

/-- The ciphertext of `aesEncrypt`, or the text of its error. -/
def aesResult (lib : Libraries) (r : Bytes × GoString × Bytes × Bytes) : Except GoString Bytes :=
  match lib.aesNewCipher r.2.2.1 with
  | .error err => .error (ascii "aesEncrypt: " ++ err)
  | .ok encrypt => encryptMode encrypt (lib.toLower r.2.1) r.2.2.2 r.1

def rsaResult (lib : Libraries) (random : Bytes) (r : Bytes × GoString) : Except GoString Bytes :=
  match publicKeyOf lib r.2 with
  | .error err => .error err
  | .ok key =>
    match lib.rsaEncryptPKCS1v15 random key r.1 with
    | .error err => .error (ascii "rsaEncrypt: " ++ err)
    | .ok ciphertext => .ok ciphertext

/-- The text of a URL, resolved where a base is given. -/
def readURL (net : NetLib) (urlArg : Value O) (more : List (Value O)) :
    Call O (Effect O) GoString := do
  let text ← Call.string urlArg
  match more with
  | [] => return text
  | baseArg :: _ => do
    let baseStr ← Call.string baseArg
    return resolved net baseStr text

def notBase64 (text : GoString) : Prop :=
  (Base64.decodeString Base64.stdEncoding text).2 = false ∧
    (Base64.decodeString Base64.rawStdEncoding text).2 = false

/-- `Buffer.toString` reads the encoding of bytes only. -/
def readToString (a : Value O) (more : List (Value O)) : Call O (Effect O) GoString := do
  match ← Call.toByteArray a with
  | none => Call.string a
  | some _ => encodingArg more

def readAes (buffer mode key iv : Value O) :
    Call O (Effect O) (Bytes × GoString × Bytes × Bytes) := do
  let plaintext ← dataOf buffer
  let mode ← Call.string mode
  let key ← dataOf key
  let iv ← dataOf iv
  return (plaintext, mode, key, iv)

def readRsa (buffer pem : Value O) : Call O (Effect O) (Bytes × GoString) := do
  let plaintext ← dataOf buffer
  let keyPEM ← Call.string pem
  return (plaintext, keyPEM)

def readPair (key value : Value O) : Call O (Effect O) (GoString × GoString) := do
  let key ← Call.string key
  let value ← Call.string value
  return (key, value)

/-- `Buffer.from` reads the encoding first. -/
def readFrom (a : Value O) (more : List (Value O)) : Call O (Effect O) (GoString × Bytes) := do
  let encoding ← encodingArg more
  let data ← dataOf a
  return (encoding, data)

def Function.reading (c : Captured O) (f : Function) (args : List (Value O)) : Reading O :=
  match f, args with
  | setTimeout, _ :: more | setInterval, _ :: more => .all (delayArg more)
  | clearTimeout, id :: _ | clearInterval, id :: _ => .all (Call.int64 id)
  | fetch, a :: more => .all (fetchRequest c.lib.toUpper (a :: more))
  | headersGet, name :: _ | headersHas, name :: _ => .all (Call.string name)
  | responseJson, _ =>
    match c.parseJSON c.body with
    | .ok _ => .nothing
    | .error exc => { Reading.all (exceptionText exc) with takes := true }
  | bufferFrom, a :: more => .all (readFrom a more)
  | bufferIsBuffer, a :: _ => .all (Call.toByteArray a)
  | bufferToString, a :: more => .all (readToString a more)
  | md5, a :: _ | inflate, a :: _ | deflate, a :: _ | decode, a :: _ => .all (dataOf a)
  | randomBytes, a :: _ =>
    ⟨Int, Call.int32 a, fun size => 0 < size ∧ isError (c.random size.toNat), false⟩
  | aesEncrypt, buffer :: mode :: key :: iv :: _ =>
    ⟨_, readAes buffer mode key iv, fun r => isError (aesResult c.lib r), false⟩
  | rsaEncrypt, buffer :: pem :: _ =>
    ⟨_, readRsa buffer pem, fun r => isError (rsaResult c.lib c.randomReader r), false⟩
  | url, a :: more => ⟨_, readURL c.net a more, fun text => Parse c.net.isIPv6 text = none, false⟩
  | urlSearchParams, a :: _ | paramsGet, a :: _ | paramsHas, a :: _ | paramsDelete, a :: _
  | btoa, a :: _ | encode, a :: _ => .all (Call.string a)
  | paramsSet, key :: value :: _ | paramsAppend, key :: value :: _ => .all (readPair key value)
  | atob, a :: _ => ⟨_, Call.string a, notBase64, false⟩
  | fetch, _ | md5, _ | randomBytes, _ | aesEncrypt, _ | rsaEncrypt, _ | inflate, _ | deflate, _
  | url, _ | atob, _ | btoa, _ => .tooFew
  | _, _ => .nothing

end Table

section Readers

variable {E : Engine} {ε : Type}

theorem reader_string (v : Value E.Obj) : Reader (Call.string v : Call E.Obj ε GoString) :=
  .op fun a => .ret a

theorem reader_int32 (v : Value E.Obj) : Reader (Call.int32 v : Call E.Obj ε Int) :=
  .op fun a => .ret a

theorem reader_int64 (v : Value E.Obj) : Reader (Call.int64 v : Call E.Obj ε Int) :=
  .op fun a => .ret a

theorem reader_toByteArray (v : Value E.Obj) :
    Reader (Call.toByteArray v : Call E.Obj ε (Option Bytes)) :=
  .op fun a => .ret a

theorem reader_dataOf (v : Value E.Obj) : Reader (dataOf v : Call E.Obj ε Bytes) := by
  apply (reader_toByteArray v).bind
  intro a
  cases a with
  | none => exact reader_string v
  | some data => exact .ret data

theorem reader_encodingArg (more : List (Value E.Obj)) :
    Reader (encodingArg more : Call E.Obj ε GoString) := by
  cases more with
  | nil => exact .ret _
  | cons e _ => exact reader_string e

theorem reader_delayArg (more : List (Value E.Obj)) : Reader (delayArg more) := by
  cases more with
  | nil => exact .ret _
  | cons delay _ => exact reader_int32 delay

theorem reader_readFrom (a : Value E.Obj) (more : List (Value E.Obj)) :
    Reader (readFrom a more) := by
  apply (reader_encodingArg more).bind
  intro encoding
  exact (reader_dataOf a).bind fun data => .ret _

theorem reader_readToString (a : Value E.Obj) (more : List (Value E.Obj)) :
    Reader (readToString a more) := by
  apply (reader_toByteArray a).bind
  intro data
  cases data with
  | none => exact reader_string a
  | some _ => exact reader_encodingArg more

theorem reader_readPair (key value : Value E.Obj) : Reader (readPair key value) := by
  apply (reader_string key).bind
  intro k
  exact (reader_string value).bind fun v => .ret _

theorem reader_readAes (buffer mode key iv : Value E.Obj) :
    Reader (readAes buffer mode key iv) := by
  apply (reader_dataOf buffer).bind
  intro plaintext
  apply (reader_string mode).bind
  intro m
  apply (reader_dataOf key).bind
  intro k
  exact (reader_dataOf iv).bind fun i => .ret _

theorem reader_readRsa (buffer pem : Value E.Obj) : Reader (readRsa buffer pem) := by
  apply (reader_dataOf buffer).bind
  intro plaintext
  exact (reader_string pem).bind fun keyPEM => .ret _

theorem reader_readURL (net : NetLib) (a : Value E.Obj) (more : List (Value E.Obj)) :
    Reader (readURL net a more) := by
  apply (reader_string a).bind
  intro text
  cases more with
  | nil => exact .ret _
  | cons baseArg _ => exact (reader_string baseArg).bind fun baseStr => .ret _

theorem reader_get (v : Value E.Obj) (name : GoString) :
    Reader (Call.get v name : Call E.Obj ε (Value E.Obj)) :=
  .op fun a => .ret a

theorem reader_exceptionText (exc : Value E.Obj) : Reader (exceptionText exc) := by
  apply (reader_string exc).bind
  intro msg
  apply (reader_get exc _).bind
  intro stack
  split
  · exact .ret _
  · exact (reader_string stack).bind fun text => .ret _

theorem reader_stringOption (options : Value E.Obj) (name default : GoString)
    (f : GoString → GoString) : Reader (stringOption options name default f : Call E.Obj ε _) := by
  apply (reader_get options name).bind
  intro v
  split
  · exact (reader_string v).bind fun text => .ret _
  · exact .ret _

theorem reader_readHeaders (v : Value E.Obj) (names : List GoString) (headers : GoMap) :
    Reader (readHeaders v names headers : Call E.Obj ε GoMap) := by
  induction names generalizing headers with
  | nil => exact .ret _
  | cons name names ih =>
    apply (reader_get v name).bind
    intro value
    apply (reader_string value).bind
    intro text
    exact ih _

theorem reader_fetchHeaders (v : Value E.Obj) :
    Reader (fetchHeaders v : Call E.Obj ε GoMap) := by
  unfold fetchHeaders
  split
  · exact Reader.bind (c := Call.keys v) (.op fun a => .ret a) fun names =>
      reader_readHeaders v names []
  · exact .ret _

theorem reader_fetchRequest (toUpper : GoString → GoString) (a : Value E.Obj)
    (more : List (Value E.Obj)) :
    Reader (fetchRequest toUpper (a :: more) : Call E.Obj ε FetchRequest) := by
  apply (reader_string a).bind
  intro url
  cases more with
  | nil => exact .ret _
  | cons options _ =>
    by_cases object : options.isObject = true
    · simp only [object, if_true]
      apply Reader.bind
      · apply (reader_stringOption options _ _ _).bind
        intro method
        exact (reader_stringOption options _ _ _).bind fun body => .ret _
      · intro methodBody
        apply (reader_get options _).bind
        intro headersVal
        exact (reader_fetchHeaders headersVal).bind fun headers => .ret _
    · simp only [object]
      exact .ret _

end Readers

section Bodies

variable {E : Engine} {s : Rt E}

theorem transparent_iff_holds {r : Reading E.Obj} {call : Call E.Obj (Effect E.Obj) Unit}
    (finish : r.Out → Call E.Obj (Effect E.Obj) Unit) (takes : r.takes = false)
    (split : call = r.read >>= finish) (reader : Reader r.read) (ends : ∀ a, Ends (finish a))
    (refuses : ∀ a, Refuses (finish a) ↔ r.refuses a) :
    Transparent (run E call s) ↔ r.Holds s := by
  have same : r.before s = s := by simp [Reading.before, takes]
  rw [split, transparent_bind_iff reader ends]
  unfold Reading.Holds
  rw [same]
  simp only [refuses]

/-- A function that throws no error of its own. -/
theorem transparent_all {α : Type} {read : Call E.Obj (Effect E.Obj) α}
    {call : Call E.Obj (Effect E.Obj) Unit} (finish : α → Call E.Obj (Effect E.Obj) Unit)
    (split : call = read >>= finish) (reader : Reader read)
    (ends : ∀ a, Ends (finish a) ∧ ¬ Refuses (finish a)) :
    Transparent (run E call s) ↔ (Reading.all read).Holds s :=
  transparent_iff_holds (r := .all read) finish rfl split reader (fun a => (ends a).1)
    fun a => iff_of_false (ends a).2 id

/-- A function that only reads. -/
theorem transparent_reads {α : Type} {read : Call E.Obj (Effect E.Obj) α}
    {call : Call E.Obj (Effect E.Obj) Unit} (split : call = read >>= fun _ => pure ())
    (reader : Reader read) : Transparent (run E call s) ↔ (Reading.all read).Holds s :=
  transparent_all (fun _ => pure ()) split reader fun _ => ⟨trivial, id⟩

/-- A function that does one thing with what it has read. -/
theorem transparent_does {α : Type} {read : Call E.Obj (Effect E.Obj) α}
    {call : Call E.Obj (Effect E.Obj) Unit} (does : α → Effect E.Obj)
    (split : call = read >>= fun a => .effect (does a) (pure ())) (reader : Reader read) :
    Transparent (run E call s) ↔ (Reading.all read).Holds s :=
  transparent_all (fun a => .effect (does a) (pure ())) split reader fun _ => ⟨trivial, id⟩

theorem transparent_nothing {a : Unit} :
    Transparent (run E (pure a : Call E.Obj (Effect E.Obj) Unit) s) ↔ Reading.nothing.Holds s :=
  transparent_iff_holds (r := .nothing) (fun _ => pure ()) rfl rfl (.ret _) (fun _ => trivial)
    fun _ => Iff.rfl

theorem transparent_tooFew {msg : GoString} :
    Transparent (run E (.throwError msg : Call E.Obj (Effect E.Obj) Unit) s) ↔
      Reading.tooFew.Holds s :=
  transparent_iff_holds (r := .tooFew) (fun _ => .throwError msg) rfl rfl (.ret _) (fun _ => trivial)
    fun _ => Iff.rfl

variable (c : Captured E.Obj) (args : List (Value E.Obj))

theorem transparent_timers :
    (Transparent (run E (Function.setTimeout.call c args) s) ↔
      (Function.setTimeout.reading c args).Holds s) ∧
    (Transparent (run E (Function.setInterval.call c args) s) ↔
      (Function.setInterval.reading c args).Holds s) ∧
    (Transparent (run E (Function.clearTimeout.call c args) s) ↔
      (Function.clearTimeout.reading c args).Holds s) ∧
    (Transparent (run E (Function.clearInterval.call c args) s) ↔
      (Function.clearInterval.reading c args).Holds s) := by
  cases args with
  | nil => exact ⟨transparent_nothing, transparent_nothing, transparent_nothing, transparent_nothing⟩
  | cons a more =>
    refine ⟨?_, ?_, ?_, ?_⟩
    · refine transparent_does (fun delay => .setTimeout a (if delay < 0 then 0 else delay)) ?_
        (reader_delayArg more)
      cases more <;> rfl
    · refine transparent_does (fun delay => .setInterval a (if delay ≤ 0 then 1 else delay)) ?_
        (reader_delayArg more)
      cases more <;> rfl
    · exact transparent_does .clearTimeout rfl (reader_int64 a)
    · exact transparent_does .clearInterval rfl (reader_int64 a)

theorem transparent_fetch : Transparent (run E (Function.fetch.call c args) s) ↔
    (Function.fetch.reading c args).Holds s := by
  cases args with
  | nil => exact transparent_tooFew
  | cons a more =>
    exact transparent_does .fetch rfl (reader_fetchRequest c.lib.toUpper a more)

theorem transparent_json : Transparent (run E (Function.responseJson.call c args) s) ↔
    (Function.responseJson.reading c args).Holds s := by
  simp only [Function.call, Function.reading, responseJson]
  cases c.parseJSON c.body with
  | ok v => exact transparent_nothing
  | error exc =>
    have read : ((do
        let text ← exceptionText exc
        return Settled.rejected (.newString (ascii "json parse error: " ++ text)) :
          Call E.Obj (Effect E.Obj) (Settled E.Obj)) >>= fun _ => pure ()) =
        exceptionText exc >>= fun _ => pure () :=
      Call.bind_assoc _ _ _
    have taken := transparent_bind_iff (reader_exceptionText exc)
      (f := fun _ => (pure () : Call E.Obj (Effect E.Obj) Unit)) (fun _ => trivial)
      { s with pending := none }
    rw [← read] at taken
    refine taken.trans (and_congr_right fun _ => forall₂_congr fun _ _ => ?_)
    simp [Reading.before, Reading.all, Refuses, pure]

theorem transparent_buffer :
    (Transparent (run E (Function.bufferFrom.call c args) s) ↔
      (Function.bufferFrom.reading c args).Holds s) ∧
    (Transparent (run E (Function.bufferIsBuffer.call c args) s) ↔
      (Function.bufferIsBuffer.reading c args).Holds s) ∧
    (Transparent (run E (Function.bufferToString.call c args) s) ↔
      (Function.bufferToString.reading c args).Holds s) := by
  cases args with
  | nil => exact ⟨transparent_nothing, transparent_nothing, transparent_nothing⟩
  | cons a more =>
    refine ⟨?_, ?_, ?_⟩
    · refine transparent_reads ?_ (reader_readFrom a more)
      change (bufferFrom (a :: more) >>= fun _ => pure ()) = _
      simp only [bufferFrom, readFrom, dataOf, bind_assoc]
      refine bind_congr fun encoding => congrArg (Call.op _) (funext fun data => ?_)
      cases data <;> rfl
    · exact transparent_reads rfl (reader_toByteArray a)
    · refine transparent_reads ?_ (reader_readToString a more)
      refine congrArg (Call.op _) (funext fun data => ?_)
      cases data with
      | none => rfl
      | some data => cases more <;> rfl

/-- The functions that take the bytes or the text of one argument and always return. -/
theorem transparent_data :
    (Transparent (run E (Function.md5.call c args) s) ↔
      (Function.md5.reading c args).Holds s) ∧
    (Transparent (run E (Function.inflate.call c args) s) ↔
      (Function.inflate.reading c args).Holds s) ∧
    (Transparent (run E (Function.deflate.call c args) s) ↔
      (Function.deflate.reading c args).Holds s) ∧
    (Transparent (run E (Function.decode.call c args) s) ↔
      (Function.decode.reading c args).Holds s) := by
  cases args with
  | nil => exact ⟨transparent_tooFew, transparent_tooFew, transparent_tooFew, transparent_nothing⟩
  | cons a more =>
    refine ⟨?_, ?_, ?_, ?_⟩
    · refine transparent_reads ?_ (reader_dataOf a)
      exact Call.bind_assoc _ _ _
    · refine transparent_reads ?_ (reader_dataOf a)
      refine (Call.bind_assoc _ _ _).trans (bind_congr fun data => ?_)
      cases inflateBytes c.lib data <;> rfl
    · refine transparent_reads ?_ (reader_dataOf a)
      refine (Call.bind_assoc _ _ _).trans (bind_congr fun data => ?_)
      cases c.lib.zlibWrite data <;> rfl
    · refine transparent_reads ?_ (reader_dataOf a)
      refine congrArg (Call.op _) (funext fun data => ?_)
      cases data <;> rfl

/-- The functions that take the text of one argument and always return. -/
theorem transparent_text (f : Function)
    (h : f ∈ [.headersGet, .headersHas, .urlSearchParams, .paramsGet, .paramsHas, .paramsDelete,
      .btoa, .encode]) :
    Transparent (run E (f.call c args) s) ↔ (f.reading c args).Holds s := by
  simp only [List.mem_cons, List.not_mem_nil, or_false] at h
  cases args with
  | nil =>
    rcases h with rfl | rfl | rfl | rfl | rfl | rfl | rfl | rfl
    all_goals first | exact transparent_nothing | exact transparent_tooFew
  | cons a more =>
    rcases h with rfl | rfl | rfl | rfl | rfl | rfl | rfl | rfl
    · refine transparent_reads ?_ (reader_string a)
      change (headersGet c.lib.toLower c.headerMap (a :: more) >>= fun _ => pure ()) = _
      simp only [headersGet, Call.string_bind, Call.op_bind]
      refine congrArg (Call.op _) (funext fun key => ?_)
      cases c.headerMap.find? (fun e => e.1 == c.lib.toLower key) <;> rfl
    · exact transparent_reads rfl (reader_string a)
    · exact transparent_reads rfl (reader_string a)
    · refine transparent_reads ?_ (reader_string a)
      change (paramsGet c.params (a :: more) >>= fun _ => pure ()) = _
      simp only [paramsGet, Call.string_bind, Call.op_bind]
      refine congrArg (Call.op _) (funext fun key => ?_)
      split <;> rfl
    · exact transparent_reads rfl (reader_string a)
    · exact transparent_does (fun key => .setParams (c.params.del key)) rfl (reader_string a)
    · exact transparent_reads rfl (reader_string a)
    · exact transparent_reads rfl (reader_string a)

theorem transparent_write :
    (Transparent (run E (Function.paramsSet.call c args) s) ↔
      (Function.paramsSet.reading c args).Holds s) ∧
    (Transparent (run E (Function.paramsAppend.call c args) s) ↔
      (Function.paramsAppend.reading c args).Holds s) := by
  match args with
  | [] | [_] => exact ⟨transparent_nothing, transparent_nothing⟩
  | key :: value :: _ =>
    refine ⟨?_, ?_⟩
    · exact transparent_does (fun p => .setParams (c.params.set p.1 p.2)) rfl
        (reader_readPair key value)
    · exact transparent_does (fun p => .setParams (c.params.add p.1 p.2)) rfl
        (reader_readPair key value)

/-- The end of a function that returns or throws an error of its own. -/
def finish {α : Type} (r : Except GoString α) : Call E.Obj (Effect E.Obj) Unit :=
  match r with
  | .error err => .throwError err
  | .ok _ => pure ()

theorem ends_finish {α : Type} (r : Except GoString α) : Ends (finish (E := E) r) := by
  cases r <;> exact trivial

theorem refuses_finish {α : Type} (r : Except GoString α) :
    Refuses (finish (E := E) r) ↔ isError r := by
  cases r with
  | error err => exact ⟨fun _ => ⟨err, rfl⟩, fun _ => trivial⟩
  | ok a =>
    refine iff_of_false id ?_
    rintro ⟨_, ⟨⟩⟩

theorem transparent_randomBytes : Transparent (run E (Function.randomBytes.call c args) s) ↔
    (Function.randomBytes.reading c args).Holds s := by
  cases args with
  | nil => exact transparent_tooFew
  | cons a more =>
    refine transparent_iff_holds (r := Function.randomBytes.reading c (a :: more))
      (fun size : Int => if size ≤ 0 then pure () else
        finish ((c.random size.toNat).mapError (ascii "randomBytes: " ++ ·))) rfl ?_
      (reader_int32 a) (fun size : Int => ?_) (fun size : Int => ?_)
    · change (randomBytes c.random (a :: more) >>= fun _ => pure ()) = Call.int32 a >>= _
      simp only [randomBytes, Call.int32_bind, Call.op_bind]
      refine congrArg (Call.op _) (funext fun size => ?_)
      split
      · rfl
      · cases c.random (Int.toNat size) <;> rfl
    · split
      · exact trivial
      · exact ends_finish _
    · change _ ↔ 0 < size ∧ isError (c.random size.toNat)
      split_ifs with small
      · exact iff_of_false id fun h => absurd h.1 (by omega)
      · rw [refuses_finish]
        cases c.random size.toNat with
        | error err => exact iff_of_true ⟨_, rfl⟩ ⟨by omega, err, rfl⟩
        | ok buf =>
          refine iff_of_false ?_ ?_
          · rintro ⟨_, ⟨⟩⟩
          · rintro ⟨_, _, ⟨⟩⟩

theorem transparent_aesEncrypt : Transparent (run E (Function.aesEncrypt.call c args) s) ↔
    (Function.aesEncrypt.reading c args).Holds s := by
  match args with
  | [] | [_] | [_, _] | [_, _, _] => exact transparent_tooFew
  | buffer :: mode :: key :: iv :: more =>
    refine transparent_iff_holds (r := Function.aesEncrypt.reading c _)
      (fun r => finish (aesResult c.lib r)) rfl ?_ (reader_readAes buffer mode key iv)
      (fun r => ends_finish _) (fun r => refuses_finish _)
    change (aesEncrypt c.lib (buffer :: mode :: key :: iv :: more) >>= fun _ => pure ()) =
      readAes buffer mode key iv >>= fun r => finish (aesResult c.lib r)
    simp only [aesEncrypt, readAes, bind_assoc]
    refine bind_congr fun plaintext => bind_congr fun mode => bind_congr fun key =>
      bind_congr fun iv => ?_
    simp only [Call.pure_bind, aesResult]
    cases c.lib.aesNewCipher key with
    | error err => rfl
    | ok encrypt =>
      simp only
      cases encryptMode encrypt (c.lib.toLower mode) iv plaintext <;> rfl

theorem transparent_rsaEncrypt : Transparent (run E (Function.rsaEncrypt.call c args) s) ↔
    (Function.rsaEncrypt.reading c args).Holds s := by
  match args with
  | [] | [_] => exact transparent_tooFew
  | buffer :: pem :: more =>
    refine transparent_iff_holds (r := Function.rsaEncrypt.reading c _)
      (fun r => finish (rsaResult c.lib c.randomReader r)) rfl ?_ (reader_readRsa buffer pem)
      (fun r => ends_finish _) (fun r => refuses_finish _)
    change (rsaEncrypt c.lib c.randomReader (buffer :: pem :: more) >>= fun _ => pure ()) =
      readRsa buffer pem >>= fun r => finish (rsaResult c.lib c.randomReader r)
    simp only [rsaEncrypt, readRsa, bind_assoc]
    refine bind_congr fun plaintext => bind_congr fun keyPEM => ?_
    simp only [Call.pure_bind, rsaResult]
    cases publicKeyOf c.lib keyPEM with
    | error err => rfl
    | ok key =>
      simp only
      cases c.lib.rsaEncryptPKCS1v15 c.randomReader key plaintext <;> rfl

theorem url_end (isIPv6 : GoString → Bool) (text : GoString) :
    ((match Parse isIPv6 text with
      | none => .throwError (ascii "Invalid URL: " ++ text)
      | some parsed => pure (urlObject parsed) : Call E.Obj (Effect E.Obj) UrlObject) >>=
        fun _ => pure ()) =
      match Parse isIPv6 text with
      | none => .throwError (ascii "Invalid URL: " ++ text)
      | some _ => pure () := by
  cases Parse isIPv6 text <;> rfl

theorem transparent_url : Transparent (run E (Function.url.call c args) s) ↔
    (Function.url.reading c args).Holds s := by
  cases args with
  | nil => exact transparent_tooFew
  | cons a more =>
    refine transparent_iff_holds (r := Function.url.reading c _)
      (fun text : GoString => match Parse c.net.isIPv6 text with
        | none => .throwError (ascii "Invalid URL: " ++ text)
        | some _ => pure ()) rfl ?_ (reader_readURL c.net a more)
      (fun text : GoString => ?_) (fun text : GoString => ?_)
    · change (URL c.net (a :: more) >>= fun _ => pure ()) = readURL c.net a more >>= _
      cases more with
      | nil =>
        simp only [URL, readURL, Call.string_bind, Call.op_bind, Call.pure_bind]
        exact congrArg (Call.op _) (funext fun text => url_end c.net.isIPv6 text)
      | cons b more =>
        simp only [URL, readURL, Call.string_bind, Call.op_bind, Call.pure_bind]
        exact congrArg (Call.op _) (funext fun text => congrArg (Call.op _)
          (funext fun baseStr => url_end c.net.isIPv6 (resolved c.net baseStr text)))
    · cases Parse c.net.isIPv6 text <;> exact trivial
    · change _ ↔ Parse c.net.isIPv6 text = none
      cases Parse c.net.isIPv6 text with
      | none => exact iff_of_true trivial rfl
      | some u => exact iff_of_false id (by simp)

theorem transparent_atob : Transparent (run E (Function.atob.call c args) s) ↔
    (Function.atob.reading c args).Holds s := by
  cases args with
  | nil => exact transparent_tooFew
  | cons a more =>
    refine transparent_iff_holds (r := Function.atob.reading c _)
      (fun text : GoString => if (Base64.decodeString Base64.stdEncoding text).2 ||
          (Base64.decodeString Base64.rawStdEncoding text).2 then pure ()
        else .throwError (ascii "atob: invalid base64 string")) rfl ?_ (reader_string a)
      (fun text : GoString => ?_) (fun text : GoString => ?_)
    · change (atob (a :: more) >>= fun _ => pure ()) = Call.string a >>= _
      simp only [atob, Call.string_bind, Call.op_bind]
      refine congrArg (Call.op _) (funext fun text : GoString => ?_)
      by_cases std : (Base64.decodeString Base64.stdEncoding text).2 = true
      · simp [std]
      · by_cases raw : (Base64.decodeString Base64.rawStdEncoding text).2 = true
        · simp [std, raw]
        · simp only [std, raw, Bool.false_eq_true, if_false, Bool.or_self]
          rfl
    · split <;> exact trivial
    · change _ ↔ notBase64 text
      unfold notBase64
      cases (Base64.decodeString Base64.stdEncoding text).2 with
      | true => exact iff_of_false id fun h => absurd h.1 (by simp)
      | false =>
        cases (Base64.decodeString Base64.rawStdEncoding text).2 with
        | true => exact iff_of_false id fun h => absurd h.2 (by simp)
        | false => exact iff_of_true trivial ⟨rfl, rfl⟩

/-- The test for bytes succeeds for an attached `ArrayBuffer` only; then no text is read. -/
theorem findsBytes_dataOf_iff (a : Value E.Obj) (s : Rt E) :
    FindsBytes (run E (dataOf a : Call E.Obj (Effect E.Obj) Bytes) s) ↔
      ∃ data, E.bytesOf a s.world = .ok data := by
  unfold dataOf
  rw [Call.toByteArray_bind, run_op]
  simp only [perform, Op.onException, Bool.false_eq_true, if_false, Engine.answer]
  cases E.bytesOf a s.world with
  | ok data => exact iff_of_true (by rintro r ⟨⟩) ⟨data, rfl⟩
  | error e =>
    refine iff_of_false (fun bytes => ?_) (by simp)
    have first := bytes (.toByteArray a, e) (by simp [Except.map, Outcome.after])
    cases first

end Bodies

def plainCaptured : Captured Empty where
  lib := plainLibraries
  net := ⟨fun _ => false, fun _ ref => ref⟩
  random _ := .ok []
  randomReader := []
  counter := 1
  headerMap := []
  body := []
  parseJSON _ := .ok .undefined
  params := []
  href := []

end Polyfill
