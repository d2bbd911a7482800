import Goqjs.Outcomes
import Goqjs.Ropes

/-!
# Joins inside a rebalancing

A rebalancing joins ropes, and a join that gets too deep rebalances its result. Such a nested call
meets the strings that led to it in the same order and does the same joins once more: it comes to
the very rope it was called for. So a rebalancing ends exactly if no join in it gets too deep.
-/

namespace Ropes

open JSString Rope Outcomes

variable {σ α β : Type}

def leavesIn : Option (Rope σ) → List σ
  | none => []
  | some r => r.leaves

/-- The strings of the buckets in the order of the text: what is longer came first. -/
def leavesOf : Buckets σ → List σ
  | [] => []
  | b :: buckets => leavesOf buckets ++ leavesIn b

@[simp] theorem leavesIn_none : leavesIn (none : Option (Rope σ)) = [] := rfl

@[simp] theorem leavesIn_some (r : Rope σ) : leavesIn (some r) = r.leaves := rfl

@[simp] theorem leavesOf_nil : leavesOf ([] : Buckets σ) = [] := rfl

@[simp] theorem leavesOf_cons (b : Option (Rope σ)) (buckets : Buckets σ) :
    leavesOf (b :: buckets) = leavesOf buckets ++ leavesIn b := rfl

@[simp] theorem leavesOf_append (pre post : Buckets σ) :
    leavesOf (pre ++ post) = leavesOf post ++ leavesOf pre := by
  induction pre with
  | nil => simp
  | cons b pre ih => simp [ih]

@[simp] theorem leavesOf_replicate (n : Nat) :
    leavesOf (List.replicate n (none : Option (Rope σ))) = [] := by
  induction n with
  | zero => rfl
  | succ n ih => simp [List.replicate_succ, ih]

/-- `js_new_string_rope` that gives up instead of rebalancing. -/
def shallowJoin [JSString σ] : Join σ := fun op1 op2 =>
  if stringLenMax < op1.len + op2.len then .error .tooLong
  else if ropeMaxDepth < (node op1 op2).depth then .error .nesting
  else .ok (node op1 op2)

variable {cut : Prop} {join' join : Join σ}

section
variable (follows : ∀ a b, Follows Stop.nesting cut (join' a b) (join a b))
include follows

theorem gatherOne_follows (b a : Option (Rope σ)) :
    Follows Stop.nesting cut (gatherOne join' b a) (gatherOne join b a) := by
  cases b with
  | none => exact .refl _
  | some b =>
    cases a with
    | none => exact .refl _
    | some a => exact (follows b a).map some

theorem putBehind_follows (val : Rope σ) (a : Option (Rope σ)) :
    Follows Stop.nesting cut (putBehind join' val a) (putBehind join val a) := by
  cases a with
  | none => exact .refl _
  | some a => exact follows a val

theorem settle_follows (buckets : Buckets σ) (a : Rope σ) :
    Follows Stop.nesting cut (settle join' buckets a) (settle join buckets a) := by
  induction buckets generalizing a with
  | nil => exact .refl _
  | cons b buckets ih =>
    cases b with
    | none => exact .refl _
    | some b => exact (follows b a).bind fun a => (ih a).map _

theorem gather_follows (buckets : Buckets σ) (a : Option (Rope σ)) :
    Follows Stop.nesting cut (gather join' buckets a) (gather join buckets a) := by
  induction buckets generalizing a with
  | nil => exact .refl _
  | cons b buckets ih => exact (gatherOne_follows follows b a).bind ih

variable [JSString σ]

theorem sink_follows (val : Rope σ) (bounds : List Nat) (buckets : Buckets σ)
    (a : Option (Rope σ)) :
    Follows Stop.nesting cut (sink join' val bounds buckets a)
      (sink join val bounds buckets a) := by
  induction bounds generalizing buckets a with
  | nil => exact .refl _
  | cons bound bounds ih =>
    cases buckets with
    | nil => exact .refl _
    | cons b buckets =>
      rw [sink, sink]
      split
      · exact (gatherOne_follows follows b a).bind fun a => (ih buckets a).map _
      · exact (putBehind_follows follows val a).bind fun a => settle_follows follows _ a

theorem insert_follows (buckets : Buckets σ) (p : σ) :
    Follows Stop.nesting cut (insert join' buckets p) (insert join buckets p) := by
  rw [insert, insert]
  split
  · exact .refl _
  · exact sink_follows follows _ _ _ _

theorem rebalanceStringRopeRec_follows (buckets : Buckets σ) (rope : Rope σ) :
    Follows Stop.nesting cut (rebalanceStringRopeRec join' buckets rope)
      (rebalanceStringRopeRec join buckets rope) := by
  induction rope generalizing buckets with
  | str p => exact insert_follows follows buckets p
  | rope n d l r ihl ihr => exact (ihl buckets).bind fun buckets => ihr buckets

theorem rebalanceStringRope_follows (rope : Rope σ) :
    Follows Stop.nesting cut (rebalanceStringRope join' rope) (rebalanceStringRope join rope) :=
  (rebalanceStringRopeRec_follows follows noBuckets rope).bind fun buckets =>
    (gather_follows follows buckets none).map _

end

variable [JSString σ]

def insertAll (join : Join σ) (buckets : Buckets σ) : List σ → Except Stop (Buckets σ)
  | [] => .ok buckets
  | p :: ps => (insert join buckets p).bind fun buckets => insertAll join buckets ps

theorem insertAll_append (join : Join σ) (buckets : Buckets σ) (ps qs : List σ) :
    insertAll join buckets (ps ++ qs) =
      (insertAll join buckets ps).bind fun buckets => insertAll join buckets qs := by
  induction ps generalizing buckets with
  | nil => rfl
  | cons p ps ih =>
    rw [List.cons_append, insertAll, insertAll]
    cases insert join buckets p with
    | error e => rfl
    | ok buckets => exact ih buckets

theorem rebalanceStringRopeRec_eq (join : Join σ) (buckets : Buckets σ) (rope : Rope σ) :
    rebalanceStringRopeRec join buckets rope = insertAll join buckets rope.leaves := by
  induction rope generalizing buckets with
  | str p =>
    rw [rebalanceStringRopeRec, leaves, insertAll]
    cases insert join buckets p <;> rfl
  | rope n d l r ihl ihr =>
    rw [rebalanceStringRopeRec, leaves, insertAll_append, ihl]
    exact congrArg _ (funext ihr)

theorem shallowJoin_ok {a b r : Rope σ} (h : shallowJoin a b = .ok r) :
    a.len + b.len ≤ stringLenMax ∧ (node a b).depth ≤ ropeMaxDepth ∧ r = node a b := by
  rw [shallowJoin] at h
  split at h
  · cases h
  · split at h
    · cases h
    · cases h
      exact ⟨by omega, by omega, rfl⟩

theorem shallowJoin_refused {a b : Rope σ} (h : shallowJoin a b = .error .nesting) :
    ¬stringLenMax < a.len + b.len ∧ ropeMaxDepth < (node a b).depth := by
  rw [shallowJoin] at h
  split at h
  · cases h
  · split at h
    · exact ⟨‹_›, ‹_›⟩
    · cases h

theorem gatherOne_leaves {b a a' : Option (Rope σ)} (h : gatherOne shallowJoin b a = .ok a') :
    leavesIn a' = leavesIn b ++ leavesIn a := by
  cases b with
  | none =>
    cases h
    rfl
  | some b =>
    cases a with
    | none =>
      cases h
      simp
    | some a =>
      obtain ⟨r, joined, rfl⟩ := map_ok.mp h
      rw [(shallowJoin_ok joined).2.2]
      simp

theorem putBehind_leaves {val a' : Rope σ} {a : Option (Rope σ)}
    (h : putBehind shallowJoin val a = .ok a') : a'.leaves = leavesIn a ++ val.leaves := by
  cases a with
  | none =>
    cases h
    rfl
  | some a =>
    rw [(shallowJoin_ok h).2.2]
    simp

/-- Where a rope ends up, and that nothing behind that place matters. -/
theorem settle_ok {buckets buckets' : Buckets σ} {a : Rope σ}
    (h : settle shallowJoin buckets a = .ok buckets') :
    ∃ pre post r, buckets = pre ++ none :: post ∧
      buckets' = List.replicate pre.length none ++ some r :: post ∧
      r.leaves = leavesOf pre ++ a.leaves ∧
      ∀ post', settle shallowJoin (pre ++ none :: post') a =
        .ok (List.replicate pre.length none ++ some r :: post') := by
  induction buckets generalizing a buckets' with
  | nil => cases h
  | cons b buckets ih =>
    cases b with
    | none =>
      cases h
      exact ⟨[], buckets, a, rfl, rfl, rfl, fun _ => rfl⟩
    | some b =>
      obtain ⟨a', joined, h⟩ := bind_ok.mp h
      obtain ⟨rest, settled, rfl⟩ := map_ok.mp h
      obtain ⟨pre, post, r, rfl, rfl, texts, any⟩ := ih settled
      refine ⟨some b :: pre, post, r, rfl, rfl, ?_, fun post' => ?_⟩
      · rw [texts, (shallowJoin_ok joined).2.2]
        simp
      · exact bind_ok.mpr ⟨a', joined, map_ok.mpr ⟨_, any post', rfl⟩⟩

theorem sink_ok {val : Rope σ} {bounds : List Nat} {buckets buckets' : Buckets σ}
    {a : Option (Rope σ)} (h : sink shallowJoin val bounds buckets a = .ok buckets') :
    ∃ pre post r, buckets = pre ++ none :: post ∧
      buckets' = List.replicate pre.length none ++ some r :: post ∧
      r.leaves = leavesOf pre ++ leavesIn a ++ val.leaves ∧
      ∀ post', sink shallowJoin val bounds (pre ++ none :: post') a =
        .ok (List.replicate pre.length none ++ some r :: post') := by
  induction bounds generalizing buckets buckets' a with
  | nil => cases h
  | cons bound bounds ih =>
    cases buckets with
    | nil => cases h
    | cons b buckets =>
      rw [sink] at h
      by_cases fits : bound ≤ val.len
      · rw [if_pos fits] at h
        obtain ⟨a', one, h⟩ := bind_ok.mp h
        obtain ⟨rest, sunk, rfl⟩ := map_ok.mp h
        obtain ⟨pre, post, r, rfl, rfl, texts, any⟩ := ih sunk
        refine ⟨b :: pre, post, r, rfl, rfl, ?_, fun post' => ?_⟩
        · rw [texts, gatherOne_leaves one]
          simp
        · rw [List.cons_append, sink, if_pos fits]
          exact bind_ok.mpr ⟨a', one, map_ok.mpr ⟨_, any post', rfl⟩⟩
      · rw [if_neg fits] at h
        obtain ⟨a', behind, h⟩ := bind_ok.mp h
        obtain ⟨pre, post, r, eq, eq', texts, any⟩ := settle_ok h
        refine ⟨pre, post, r, eq, eq', ?_, fun post' => ?_⟩
        · rw [texts, putBehind_leaves behind]
          simp
        · have there := any post'
          cases pre with
          | nil =>
            rw [List.nil_append, sink, if_neg fits]
            exact bind_ok.mpr ⟨a', behind, there⟩
          | cons c pre =>
            rw [List.cons_append, sink, if_neg fits]
            exact bind_ok.mpr ⟨a', behind, there⟩

/-- `c` stops at the join of `u` and `v`, if `join` gives up there and is else like `shallowJoin`
or gives up earlier. -/
def StopsAt (u v : Rope σ) (c : Join σ → Except Stop α) : Prop :=
  ∀ join, (∀ a b, Follows Stop.nesting True (join a b) (shallowJoin a b)) →
    join u v = .error .nesting → c join = .error .nesting

variable {u v : Rope σ}

theorem StopsAt.bind {c : Join σ → Except Stop α} {f : Join σ → α → Except Stop β} {w : α}
    (follows : ∀ join, (∀ a b, Follows Stop.nesting True (join a b) (shallowJoin a b)) →
      Follows Stop.nesting True (c join) (c shallowJoin))
    (ends : c shallowJoin = .ok w) (h : StopsAt u v fun join => f join w) :
    StopsAt u v fun join => (c join).bind (f join) := by
  intro join like off
  rcases follows join like w ends with same | ⟨-, early⟩
  · exact bind_error.mpr (.inr ⟨w, same, h join like off⟩)
  · exact bind_error.mpr (.inl early)

theorem StopsAt.left {c : Join σ → Except Stop α} {f : Join σ → α → Except Stop β}
    (h : StopsAt u v c) : StopsAt u v fun join => (c join).bind (f join) :=
  fun join like off => bind_error.mpr (.inl (h join like off))

theorem StopsAt.map {c : Join σ → Except Stop α} (h : StopsAt u v c) (f : α → β) :
    StopsAt u v fun join => (c join).map f :=
  fun join like off => map_error.mpr (h join like off)

theorem StopsAt.here : StopsAt u v fun join => join u v := fun _ _ off => off

theorem gatherOne_stops {b a : Option (Rope σ)}
    (h : gatherOne shallowJoin b a = .error .nesting) :
    ∃ u v, b = some u ∧ a = some v ∧ shallowJoin u v = .error .nesting := by
  cases b with
  | none => cases h
  | some u =>
    cases a with
    | none => cases h
    | some v => exact ⟨u, v, rfl, rfl, map_error.mp h⟩

theorem putBehind_stops {val : Rope σ} {a : Option (Rope σ)}
    (h : putBehind shallowJoin val a = .error .nesting) :
    ∃ u, a = some u ∧ shallowJoin u val = .error .nesting := by
  cases a with
  | none => cases h
  | some u => exact ⟨u, rfl, h⟩

theorem settle_stops {buckets : Buckets σ} {a : Rope σ}
    (h : settle shallowJoin buckets a = .error .nesting) :
    ∃ pre post u v, buckets = pre ++ post ∧ shallowJoin u v = .error .nesting ∧
      u.leaves ++ v.leaves = leavesOf pre ++ a.leaves ∧
      ∀ tail, StopsAt u v fun join => settle join (pre ++ tail) a := by
  induction buckets generalizing a with
  | nil => cases h
  | cons b buckets ih =>
    cases b with
    | none => cases h
    | some b =>
      rcases bind_error.mp h with refused | ⟨a', joined, h⟩
      · refine ⟨[some b], buckets, b, a, rfl, refused, by simp, fun tail => ?_⟩
        exact StopsAt.here.left
      · obtain ⟨pre, post, u, v, rfl, refused, texts, stops⟩ := ih (map_error.mp h)
        refine ⟨some b :: pre, post, u, v, rfl, refused, ?_, fun tail => ?_⟩
        · rw [texts, (shallowJoin_ok joined).2.2]
          simp
        · exact StopsAt.bind (fun join like => like b a) joined ((stops tail).map _)

theorem gather_stops {buckets : Buckets σ} {a : Option (Rope σ)}
    (h : gather shallowJoin buckets a = .error .nesting) :
    ∃ pre post u v, buckets = pre ++ post ∧ shallowJoin u v = .error .nesting ∧
      u.leaves ++ v.leaves = leavesOf pre ++ leavesIn a ∧
      ∀ tail, StopsAt u v fun join => gather join (pre ++ tail) a := by
  induction buckets generalizing a with
  | nil => cases h
  | cons b buckets ih =>
    rcases bind_error.mp h with off | ⟨a', one, h⟩
    · obtain ⟨u, v, rfl, rfl, refused⟩ := gatherOne_stops off
      refine ⟨[some u], buckets, u, v, rfl, refused, by simp, fun tail => ?_⟩
      exact (StopsAt.here.map some).left
    · obtain ⟨pre, post, u, v, rfl, refused, texts, stops⟩ := ih h
      refine ⟨b :: pre, post, u, v, rfl, refused, ?_, fun tail => ?_⟩
      · rw [texts, gatherOne_leaves one]
        simp
      · exact StopsAt.bind (fun join like => gatherOne_follows like b a) one (stops tail)

/-- The first loop stops as the loop of `js_rebalance_string_rope` would on the same buckets; after
it the string is part of what is joined. -/
theorem sink_stops {val : Rope σ} {bounds : List Nat} {buckets : Buckets σ}
    {a : Option (Rope σ)} (h : sink shallowJoin val bounds buckets a = .error .nesting) :
    ∃ pre post u v, buckets = pre ++ post ∧ shallowJoin u v = .error .nesting ∧
      (∀ tail, tail.length = post.length →
        StopsAt u v fun join => sink join val bounds (pre ++ tail) a) ∧
      (u.leaves ++ v.leaves = leavesOf pre ++ leavesIn a ++ val.leaves ∨
        u.leaves ++ v.leaves = leavesOf pre ++ leavesIn a ∧
          ∀ tail, StopsAt u v fun join => gather join (pre ++ tail) a) := by
  induction bounds generalizing buckets a with
  | nil => cases h
  | cons bound bounds ih =>
    cases buckets with
    | nil => cases h
    | cons b buckets =>
      rw [sink] at h
      by_cases fits : bound ≤ val.len
      · rw [if_pos fits] at h
        rcases bind_error.mp h with off | ⟨a', one, h⟩
        · obtain ⟨u, v, rfl, rfl, refused⟩ := gatherOne_stops off
          refine ⟨[some u], buckets, u, v, rfl, refused, fun tail _ => ?_,
            .inr ⟨by simp, fun tail => (StopsAt.here.map some).left⟩⟩
          simp only [List.singleton_append, sink, if_pos fits]
          exact (StopsAt.here.map some).left
        · obtain ⟨pre, post, u, v, rfl, refused, stops, texts⟩ := ih (map_error.mp h)
          refine ⟨b :: pre, post, u, v, rfl, refused, fun tail len => ?_, ?_⟩
          · simp only [List.cons_append, sink, if_pos fits]
            exact StopsAt.bind (fun join like => gatherOne_follows like b a) one
              ((stops tail len).map _)
          · rw [gatherOne_leaves one] at texts
            rcases texts with texts | ⟨texts, gathers⟩
            · exact .inl (by simpa using texts)
            · refine .inr ⟨by simpa using texts, fun tail => ?_⟩
              exact StopsAt.bind (fun join like => gatherOne_follows like b a) one (gathers tail)
      · rw [if_neg fits] at h
        rcases bind_error.mp h with off | ⟨a', behind, h⟩
        · obtain ⟨u, rfl, refused⟩ := putBehind_stops off
          refine ⟨[], b :: buckets, u, val, rfl, refused, fun tail len => ?_, .inl (by simp)⟩
          obtain ⟨c, tail, rfl⟩ := List.exists_cons_of_length_eq_add_one len
          simp only [List.nil_append, sink, if_neg fits]
          exact StopsAt.here.left
        · obtain ⟨pre, post, u, v, eq, refused, texts, stops⟩ := settle_stops h
          refine ⟨pre, post, u, v, eq, refused, fun tail len => ?_,
            .inl (by rw [texts, putBehind_leaves behind, List.append_assoc])⟩
          have longer : (pre ++ tail).length = buckets.length + 1 := by
            rw [List.length_append, len, ← List.length_append, ← eq, List.length_cons]
          have stops := stops tail
          obtain ⟨c, rest, eq⟩ := List.exists_cons_of_length_eq_add_one longer
          rw [eq] at stops ⊢
          simp only [sink, if_neg fits]
          exact StopsAt.bind (fun join like => putBehind_follows like val a) behind stops

end Ropes
