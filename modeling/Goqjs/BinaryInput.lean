import Goqjs.BinaryCodecs
import Goqjs.Crypto

/-!
# Bytes in three representations

A consumer of bytes tests whether it was given an `ArrayBuffer` and otherwise
takes the text of its argument. For a string that is its UTF-8; for a view on a
buffer it is the list of its elements in decimal.
-/

namespace Polyfill

open Quickjs Qjs

/-- What a call of a consumer gives: a value or a settled promise. -/
inductive Out (O : Type) where
  | value (v : Value O)
  | settled (p : Settled O)

/-- A consumer of bytes with its other arguments. The first group takes strings as well. -/
inductive Consumer (O : Type) where
  | md5
  | aesData (mode key iv : Value O)
  | aesKey (data mode iv : Value O)
  | aesIv (data mode key : Value O)
  | rsaData (random : Bytes) (pem : Value O)
  | inflate
  | deflate
  | bufferFrom (more : List (Value O))
  | bufferToString (more : List (Value O))
  | decode

namespace Consumer

variable {O ε : Type}

/-- Whether a string stands for its UTF-8. -/
def takesText : Consumer O → Bool
  | bufferFrom _ | bufferToString _ | decode => false
  | _ => true

def call (lib : Libraries) (c : Consumer O) (v : Value O) : Call O ε (Out O) :=
  match c with
  | md5 => Out.value <$> Polyfill.md5 lib [v]
  | aesData mode key iv => Out.value <$> aesEncrypt lib [v, mode, key, iv]
  | aesKey data mode iv => Out.value <$> aesEncrypt lib [data, mode, v, iv]
  | aesIv data mode key => Out.value <$> aesEncrypt lib [data, mode, key, v]
  | rsaData random pem => Out.value <$> rsaEncrypt lib random [v, pem]
  | inflate => Out.settled <$> Polyfill.inflate lib [v]
  | deflate => Out.settled <$> Polyfill.deflate lib [v]
  | bufferFrom more => Out.value <$> Polyfill.bufferFrom (v :: more)
  | bufferToString more => Out.value <$> Polyfill.bufferToString (v :: more)
  | decode => Out.value <$> textDecoderDecode [v]

end Consumer

variable {E : Engine} {ε α β : Type}

/-- What the caller sees: the result, or the thrown value. -/
def observed (c : Call E.Obj ε α) (rt : Rt E) : Except (Option (Thrown E.Exn)) α :=
  match (run E c rt).result with
  | some a => .ok a
  | none => .error (run E c rt).rt.pending

theorem observed_op (o : Op E.Obj) (k : o.Answer → Call E.Obj ε α) (s : Rt E) :
    observed (.op o k) s = observed (k (perform E o s).1) (perform E o s).2.1 := rfl

/-- The exception that is pending at the start is never seen. -/
theorem observed_pending (c : Call E.Obj ε α) (s t : Rt E) (same : s.world = t.world) :
    observed c s = observed c t := by
  induction c generalizing s t with
  | ret a => rfl
  | «throwError» msg => rfl
  | op o k ih =>
    obtain ⟨answer, world⟩ := perform_pending E o s t same
    rw [observed_op, observed_op, ← answer]
    exact ih _ _ _ world
  | effect e k ih => exact ih s t same
  | takeException k ih => exact ih _ _ same

/-- No caller can tell the two calls apart, whatever is pending. -/
def Alike (c d : Call E.Obj ε α) : Prop :=
  ∀ s t : Rt E, s.world = t.world → observed c s = observed d t

theorem Alike.refl (c : Call E.Obj ε α) : Alike c c := observed_pending c

theorem Alike.op (o : Op E.Obj) {k l : o.Answer → Call E.Obj ε α} (h : ∀ a, Alike (k a) (l a)) :
    Alike (.op o k) (.op o l) := by
  intro s t same
  obtain ⟨answer, world⟩ := perform_pending E o s t same
  rw [observed_op, observed_op, ← answer]
  exact h _ _ _ world

theorem Alike.bind (c : Call E.Obj ε α) {f g : α → Call E.Obj ε β} (h : ∀ a, Alike (f a) (g a)) :
    Alike (c >>= f) (c >>= g) := by
  induction c with
  | ret a => exact h a
  | «throwError» msg => exact Alike.refl _
  | op o k ih => exact Alike.op o ih
  | effect e k ih => exact fun s t same => ih s t same
  | takeException k ih => exact fun s t same => ih _ _ same

/-- The bytes that a value stands for where text is taken as well. -/
inductive StandsFor : Value E.Obj → Bytes → Prop where
  | arrayBuffer (data : Bytes) : StandsFor (.arrayBuffer data) data
  | string (s : Str) : StandsFor (.string s) (toCStringLen s)
  | view (buffer : Bytes) (offset length : Nat) :
      StandsFor (.uint8Array buffer offset length) (viewText (viewBytes buffer offset length))

theorem decimal_ascii (n : Nat) : ∀ c ∈ decimal n, c.toNat < 0x80 := by
  intro c hc
  obtain ⟨d, hd, rfl⟩ := List.mem_map.mp hc
  have digit := (Char.isDigit_iff_toNat.mp
    (Nat.isDigit_of_mem_toDigits (by decide) (by decide) hd)).2
  change d.toNat ≤ 57 at digit
  rw [toNat_ofNat_of_lt (by omega)]
  omega

theorem forall_mem_joinWith {P : UInt8 → Prop} {sep : GoString} {parts : List GoString}
    (hsep : ∀ c ∈ sep, P c) (hparts : ∀ p ∈ parts, ∀ c ∈ p, P c) :
    ∀ c ∈ joinWith sep parts, P c := by
  induction parts using joinWith.induct with
  | case1 => simp [joinWith]
  | case2 a => simpa [joinWith] using hparts
  | case3 a rest notNil ih =>
    rw [joinWith.eq_3 sep a rest notNil]
    intro c hc
    rcases List.mem_append.mp hc with hc | hc
    · rcases List.mem_append.mp hc with hc | hc
      · exact hparts a List.mem_cons_self c hc
      · exact hsep c hc
    · exact ih (fun p hp => hparts p (List.mem_cons_of_mem _ hp)) c hc

theorem joinWith_ascii {sep : GoString} {parts : List GoString} (hsep : ∀ c ∈ sep, c.toNat < 0x80)
    (hparts : ∀ p ∈ parts, ∀ c ∈ p, c.toNat < 0x80) :
    ∀ c ∈ joinWith sep parts, c.toNat < 0x80 :=
  forall_mem_joinWith hsep hparts

theorem viewText_ascii (data : Bytes) : ∀ c ∈ viewText data, c.toNat < 0x80 := by
  refine joinWith_ascii (by decide) fun p hp => ?_
  obtain ⟨b, _, rfl⟩ := List.mem_map.mp hp
  exact decimal_ascii b.toNat

/-- After `dataOf` a body goes on with the bytes that the value stands for. -/
theorem alike_dataOf {v : Value E.Obj} {data : Bytes} (h : StandsFor v data)
    (k : Bytes → Call E.Obj ε α) : Alike (dataOf v >>= k) (k data) := by
  intro s t same
  cases h with
  | arrayBuffer => exact observed_pending (k data) s t same
  | string str => exact observed_pending (k (toCStringLen str)) _ t same
  | view buffer offset length =>
    have text := toCStringLen_of_ascii (s := .narrow (viewText (viewBytes buffer offset length)))
      (viewText_ascii _) rfl
    have read := observed_pending (k (viewText (viewBytes buffer offset length)))
      { s with pending := some (.typeError "ArrayBuffer object expected") } t same
    rw [← read, ← text]
    rfl

/-- The consumers of the first group take the three representations alike. -/
theorem alike_of_standsFor (lib : Libraries) {c : Consumer E.Obj} (text : c.takesText = true)
    {v : Value E.Obj} {data : Bytes} (h : StandsFor v data) :
    Alike (c.call lib v : Call E.Obj ε (Out E.Obj)) (c.call lib (.arrayBuffer data)) := by
  have here {γ : Type} (k : Bytes → Call E.Obj ε γ) :
      Alike (dataOf v >>= k) (dataOf (.arrayBuffer data) >>= k) :=
    fun s t same => (alike_dataOf h k s s rfl).trans
      ((alike_dataOf (.arrayBuffer data) k t s same.symm).symm)
  cases c with
  | md5 =>
    simp only [Consumer.call, md5, map_eq_pure_bind, bind_assoc]
    exact here _
  | aesData mode key iv =>
    simp only [Consumer.call, aesEncrypt, map_eq_pure_bind, bind_assoc]
    exact here _
  | aesKey plaintext mode iv =>
    simp only [Consumer.call, aesEncrypt, map_eq_pure_bind, bind_assoc]
    exact Alike.bind _ fun _ => Alike.bind _ fun _ => here _
  | aesIv plaintext mode key =>
    simp only [Consumer.call, aesEncrypt, map_eq_pure_bind, bind_assoc]
    exact Alike.bind _ fun _ => Alike.bind _ fun _ => Alike.bind _ fun _ => here _
  | rsaData random pem =>
    simp only [Consumer.call, rsaEncrypt, map_eq_pure_bind, bind_assoc]
    exact here _
  | inflate =>
    simp only [Consumer.call, inflate, map_eq_pure_bind, bind_assoc]
    exact here _
  | deflate =>
    simp only [Consumer.call, deflate, map_eq_pure_bind, bind_assoc]
    exact here _
  | bufferFrom more | bufferToString more | decode => cases text

theorem decimal_ne_nil (n : Nat) : decimal n ≠ [] := by
  simp [decimal, Nat.toDigits_ne_nil]

theorem length_joinWith (sep : GoString) (parts : List GoString) (h : ∀ p ∈ parts, p ≠ []) :
    parts.length + (parts.length - 1) * sep.length ≤ (joinWith sep parts).length := by
  induction parts using joinWith.induct with
  | case1 => simp [joinWith]
  | case2 a =>
    have one := List.length_pos_iff.mpr (h a List.mem_cons_self)
    simpa [joinWith] using Nat.succ_le_of_lt one
  | case3 a rest notNil ih =>
    have one := List.length_pos_iff.mpr (h a List.mem_cons_self)
    have more := ih fun p hp => h p (List.mem_cons_of_mem _ hp)
    have restPos : 0 < rest.length := List.length_pos_iff.mpr fun hr => notNil hr
    rw [joinWith.eq_3 sep a rest notNil]
    simp only [List.length_cons, List.length_append, Nat.add_sub_cancel]
    have split : rest.length * sep.length = (rest.length - 1) * sep.length + sep.length := by
      rw [← Nat.succ_mul]
      congr 1
      omega
    omega

/-- The digits of a byte are not that byte. -/
theorem decimal_ne_byte (b : UInt8) : decimal b.toNat ≠ [b] := by
  intro h
  have digit : b ∈ decimal b.toNat := by simp [h]
  obtain ⟨d, hd, hb⟩ := List.mem_map.mp digit
  have range := Char.isDigit_iff_toNat.mp (Nat.isDigit_of_mem_toDigits (by decide) (by decide) hd)
  have low : 48 ≤ d.toNat := range.1
  have high : d.toNat ≤ 57 := range.2
  have value : b.toNat = d.toNat := by rw [← hb, toNat_ofNat_of_lt (by omega)]
  have two : (decimal b.toNat).length ≤ 1 := by simp [h]
  rw [decimal, List.length_map, Nat.length_toDigits_le_iff (by decide) (by decide)] at two
  omega

/-- The list of the elements is longer than the elements, if there are any. -/
theorem viewText_eq_iff (data : Bytes) : viewText data = data ↔ data = [] := by
  refine ⟨fun h => ?_, fun h => by rw [h]; rfl⟩
  match data with
  | [] => rfl
  | [b] => exact absurd h (decimal_ne_byte b)
  | a :: b :: rest =>
    have long := length_joinWith (ascii ",") ((a :: b :: rest).map fun b => decimal b.toNat)
      (by simp [decimal_ne_nil])
    rw [← viewText, h, List.length_map] at long
    have comma : (ascii ",").length = 1 := rfl
    rw [comma] at long
    simp only [List.length_cons] at long
    omega

/-- A view that shows `b` is taken as the `ArrayBuffer` of `b`. -/
def SameForView (lib : Libraries) (rt : Rt E) (b : Bytes) : Prop :=
  ∀ (c : Consumer E.Obj) (buffer : Bytes) (offset length : Nat),
    viewBytes buffer offset length = b →
      observed (c.call lib (.uint8Array buffer offset length) : Call E.Obj Empty (Out E.Obj)) rt =
        observed (c.call lib (.arrayBuffer b) : Call E.Obj Empty (Out E.Obj)) rt

/-- A string whose UTF-8 is `b` is taken as the `ArrayBuffer` of `b`. -/
def SameForText (lib : Libraries) (rt : Rt E) (b : Bytes) : Prop :=
  ∀ (c : Consumer E.Obj), c.takesText = true → ∀ (s : Str) (text : List Char),
    s.units = utf16 text → text.flatMap String.utf8EncodeChar = b →
      observed (c.call lib (.string s) : Call E.Obj Empty (Out E.Obj)) rt =
        observed (c.call lib (.arrayBuffer b) : Call E.Obj Empty (Out E.Obj)) rt

theorem sameForText (lib : Libraries) (rt : Rt E) (b : Bytes) : SameForText lib rt b := by
  rintro c takesText s text units rfl
  have h := StandsFor.string (E := E) s
  rw [toCStringLen_of_utf16 units] at h
  exact alike_of_standsFor lib takesText h rt rt rfl

theorem decodeText_nil (encoding : GoString) : decodeText encoding [] = [] := by
  unfold decodeText
  split_ifs <;> rfl

theorem encodeText_nil (encoding : GoString) : encodeText encoding [] = [] := by
  unfold encodeText
  split_ifs <;> rfl

/-- The conversion of the encoding does not change what is returned. -/
theorem observed_encodingArg (more : List (Value E.Obj)) (k : GoString → Call E.Obj ε α) (a : α)
    (h : ∀ encoding s, observed (k encoding) s = .ok a) (s : Rt E) :
    observed (encodingArg more >>= k) s = .ok a := by
  cases more with
  | nil => exact h _ s
  | cons e rest => exact h _ _

theorem viewText_of_view {buffer : Bytes} {offset length : Nat} :
    toCStringLen (.narrow (viewText (viewBytes buffer offset length))) =
      viewText (viewBytes buffer offset length) :=
  toCStringLen_of_ascii (s := .narrow _) (viewText_ascii _) rfl

/-- What the caller of `Buffer.from` and of a decoder sees. -/
def copied (data : Bytes) : Except (Option (Thrown E.Exn)) (Out E.Obj) :=
  .ok (.value (.newArrayBuffer data))
def decoded (text : GoString) : Except (Option (Thrown E.Exn)) (Out E.Obj) :=
  .ok (.value (.newString text))

/-- An empty view is the empty list of elements. -/
theorem sameForView_nil (lib : Libraries) (rt : Rt E) : SameForView lib rt [] := by
  intro c buffer offset length empty
  have h := StandsFor.view (E := E) buffer offset length
  rw [empty] at h
  have text : toCStringLen (.narrow (viewText (viewBytes buffer offset length))) = [] := by
    rw [empty]
    rfl
  cases c with
  | bufferFrom more =>
    simp only [Consumer.call, bufferFrom, map_eq_pure_bind, bind_assoc]
    refine (observed_encodingArg more _ (Out.value (.newArrayBuffer [])) ?_ rt).trans
      (observed_encodingArg more _ (Out.value (.newArrayBuffer [])) ?_ rt).symm
    · intro encoding s
      have read := congrArg (decodeText encoding) text
      rw [decodeText_nil] at read
      exact congrArg copied read
    · exact fun encoding s => rfl
  | bufferToString more =>
    refine (congrArg decoded text).trans ?_
    cases more with
    | nil => exact (congrArg decoded (encodeText_nil _)).symm
    | cons e rest => exact (congrArg decoded (encodeText_nil _)).symm
  | decode => exact congrArg decoded text
  | md5 | aesData | aesKey | aesIv | rsaData | inflate | deflate =>
    exact alike_of_standsFor lib rfl h rt rt rfl

/-- `Buffer.from` of a view copies the text of the view. -/
theorem not_sameForView (lib : Libraries) (rt : Rt E) {b : Bytes} (h : SameForView lib rt b) :
    b = [] := by
  have whole : viewBytes b 0 b.length = b := by simp [viewBytes]
  have same := h (.bufferFrom []) b 0 b.length whole
  have view : observed ((Consumer.bufferFrom []).call lib (.uint8Array b 0 b.length) :
      Call E.Obj Empty (Out E.Obj)) rt =
        .ok (.value (.arrayBuffer (toCStringLen (.narrow (viewText (viewBytes b 0 b.length)))))) :=
    rfl
  rw [view, viewText_of_view, whole] at same
  have data : viewText b = b :=
    Value.arrayBuffer.inj (Out.value.inj (Except.ok.inj same))
  exact (viewText_eq_iff b).mp data

/-- Strings are always taken as their UTF-8, views only while they are empty. -/
theorem same_for_every_representation_iff (lib : Libraries) (rt : Rt E) (b : Bytes) :
    SameForText lib rt b ∧ (SameForView lib rt b ↔ b = []) :=
  ⟨sameForText lib rt b, not_sameForView lib rt, fun h => h ▸ sameForView_nil lib rt⟩

/-- A view on the one byte 97 is read as the text `97`. -/
theorem same_for_view_fails : ¬ SameForView plainLibraries plainRt [0x61] := by
  intro h
  exact List.cons_ne_nil _ _ (not_sameForView plainLibraries plainRt h)

end Polyfill
