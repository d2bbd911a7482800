import Goqjs.RopeBuckets

/-!
# When a rebalancing ends

The buckets after some strings hold these strings in a way that is found again from the strings of
any of their beginnings alone. So the call that a refused join would make is refused at the same
join, and so are all the calls inside it.
-/

namespace Ropes

open JSString Rope Outcomes

variable {σ : Type}

theorem take_past {α : Type} (xs : List α) (y : α) (ys : List α) (j : Nat) :
    (xs ++ y :: ys).take (xs.length + j + 1) = xs ++ y :: ys.take j := by
  rw [Nat.add_assoc, List.take_length_add_append, List.take_succ_cons]

theorem noBuckets_eq {k n : Nat} (h : k + n = ropeBucketLen.length) :
    (noBuckets : Buckets σ) = List.replicate k none ++ List.replicate n none := by
  rw [noBuckets, ← h, List.replicate_append_replicate]

variable [JSString σ]

/-- Each beginning of the buckets comes out of its own strings. -/
def Replays (buckets : Buckets σ) : Prop :=
  ∀ k, insertAll shallowJoin noBuckets (leavesOf (buckets.take k)) =
    .ok (buckets.take k ++ List.replicate (ropeBucketLen.length - k) none)

theorem replays_noBuckets : Replays (noBuckets : Buckets σ) := by
  intro k
  have taken : (noBuckets : Buckets σ).take k =
      List.replicate (min k ropeBucketLen.length) none := List.take_replicate
  rw [taken, leavesOf_replicate, insertAll, ← noBuckets_eq (by omega)]

theorem Replays.of_prefix {pre post : Buckets σ} (h : Replays (pre ++ post))
    (full : (pre ++ post).length = ropeBucketLen.length) :
    insertAll shallowJoin noBuckets (leavesOf pre) =
      .ok (pre ++ List.replicate post.length none) := by
  have here := h pre.length
  rw [List.take_left] at here
  rw [here, ← full, List.length_append, Nat.add_sub_cancel_left]

theorem insert_eq {join : Join σ} {buckets : Buckets σ} {p : σ} (text : JSString.len p ≠ 0) :
    insert join buckets p = sink join (.str p) ropeBucketLen.tail buckets none :=
  if_neg text

theorem insert_length {buckets buckets' : Buckets σ} {p : σ}
    (h : insert shallowJoin buckets p = .ok buckets') : buckets'.length = buckets.length := by
  by_cases text : JSString.len p = 0
  · rw [insert, if_pos text] at h
    cases h
    rfl
  · rw [insert_eq text] at h
    obtain ⟨pre, post, r, rfl, rfl, -, -⟩ := sink_ok h
    simp

theorem Replays.insert {buckets buckets' : Buckets σ} {p : σ} (h : Replays buckets)
    (full : buckets.length = ropeBucketLen.length)
    (put : Ropes.insert shallowJoin buckets p = .ok buckets') : Replays buckets' := by
  by_cases text : JSString.len p = 0
  · rw [Ropes.insert, if_pos text] at put
    cases put
    exact h
  · rw [insert_eq text] at put
    obtain ⟨pre, post, r, rfl, rfl, texts, any⟩ := sink_ok put
    have length : pre.length + (post.length + 1) = ropeBucketLen.length := by
      simpa using full
    intro k
    rcases Nat.lt_or_ge pre.length k with above | below
    · -- the beginning has the new rope in it: its last string is the one that came last
      obtain ⟨j, rfl⟩ := Nat.exists_eq_add_of_lt above
      have taken : (List.replicate pre.length none ++ some r :: post).take (pre.length + j + 1) =
          List.replicate pre.length none ++ some r :: post.take j := by
        simpa using take_past (List.replicate pre.length none) (some r) post j
      have before := h (pre.length + j + 1)
      rw [take_past] at before
      have strings : leavesOf (List.replicate pre.length none ++ some r :: post.take j) =
          leavesOf (pre ++ none :: post.take j) ++ [p] := by
        simp [texts, leaves]
      rw [taken, strings, insertAll_append, before]
      refine bind_ok.mpr ⟨_, rfl, bind_ok.mpr ⟨_, ?_, rfl⟩⟩
      rw [insert_eq text]
      simpa using any (post.take j ++ List.replicate (ropeBucketLen.length - _) none)
    · rw [List.take_append_of_le_length (by simpa using below), List.take_replicate,
        Nat.min_eq_left below, leavesOf_replicate, insertAll, ← noBuckets_eq (by omega)]

theorem Replays.insertAll {buckets buckets' : Buckets σ} {ps : List σ} (h : Replays buckets)
    (full : buckets.length = ropeBucketLen.length)
    (put : Ropes.insertAll shallowJoin buckets ps = .ok buckets') :
    Replays buckets' ∧ buckets'.length = ropeBucketLen.length := by
  induction ps generalizing buckets with
  | nil =>
    cases put
    exact ⟨h, full⟩
  | cons p ps ih =>
    obtain ⟨next, one, put⟩ := bind_ok.mp put
    exact ih (h.insert full one) ((insert_length one).trans full) put

/-- The refused join, and the call for its result that is refused too. -/
def Recurs (u v : Rope σ) : Prop :=
  shallowJoin u v = .error .nesting ∧
    rebalanceStringRope shallowJoin (node u v) = .error .nesting

theorem rebalance_of_gather {u v : Rope σ} {pre tail : Buckets σ}
    (refused : shallowJoin u v = .error .nesting)
    (strings : insertAll shallowJoin noBuckets (u.leaves ++ v.leaves) = .ok (pre ++ tail))
    (stops : StopsAt u v fun join => gather join (pre ++ tail) none) : Recurs u v := by
  rw [Recurs, rebalanceStringRope, rebalanceStringRopeRec_eq, leaves_node, strings]
  exact ⟨refused, map_error.mpr (stops shallowJoin (fun _ _ => .refl _) refused)⟩

theorem insert_stops {buckets : Buckets σ} {p : σ} (h : Replays buckets)
    (full : buckets.length = ropeBucketLen.length)
    (off : insert shallowJoin buckets p = .error .nesting) :
    ∃ u v, Recurs u v ∧ StopsAt u v fun join => insert join buckets p := by
  by_cases text : JSString.len p = 0
  · rw [insert, if_pos text] at off
    cases off
  · rw [insert_eq text] at off
    obtain ⟨pre, post, u, v, rfl, refused, stops, texts⟩ := sink_stops off
    have strings := h.of_prefix full
    refine ⟨u, v, ?_, by simpa only [insert_eq text] using stops post rfl⟩
    rcases texts with texts | ⟨texts, gathers⟩
    · have again : insertAll shallowJoin noBuckets (u.leaves ++ v.leaves) = .error .nesting := by
        rw [texts, leavesIn_none, List.append_nil, insertAll_append, strings]
        refine bind_error.mpr (.inr ⟨_, rfl, bind_error.mpr (.inl ?_)⟩)
        rw [insert_eq text]
        exact stops _ List.length_replicate shallowJoin (fun _ _ => .refl _) refused
      refine ⟨refused, bind_error.mpr (.inl ?_)⟩
      rw [rebalanceStringRopeRec_eq]
      exact again
    · refine rebalance_of_gather refused ?_ (gathers (List.replicate post.length none))
      rw [texts, leavesIn_none, List.append_nil]
      exact strings

theorem insertAll_stops {buckets : Buckets σ} {ps : List σ} (h : Replays buckets)
    (full : buckets.length = ropeBucketLen.length)
    (off : insertAll shallowJoin buckets ps = .error .nesting) :
    ∃ u v, Recurs u v ∧ StopsAt u v fun join => insertAll join buckets ps := by
  induction ps generalizing buckets with
  | nil => cases off
  | cons p ps ih =>
    rcases bind_error.mp off with off | ⟨next, one, off⟩
    · obtain ⟨u, v, recurs, stops⟩ := insert_stops h full off
      exact ⟨u, v, recurs, stops.left⟩
    · obtain ⟨u, v, recurs, stops⟩ := ih (h.insert full one) ((insert_length one).trans full) off
      exact ⟨u, v, recurs,
        StopsAt.bind (fun join like => insert_follows like buckets p) one stops⟩

theorem rebalance_stops {rope : Rope σ}
    (off : rebalanceStringRope shallowJoin rope = .error .nesting) :
    ∃ u v, Recurs u v ∧ StopsAt u v fun join => rebalanceStringRope join rope := by
  have full : (noBuckets : Buckets σ).length = ropeBucketLen.length := List.length_replicate
  rcases bind_error.mp off with off | ⟨buckets, strings, off⟩
  · rw [rebalanceStringRopeRec_eq] at off
    obtain ⟨u, v, recurs, stops⟩ := insertAll_stops replays_noBuckets full off
    refine ⟨u, v, recurs, StopsAt.left ?_⟩
    simpa only [rebalanceStringRopeRec_eq] using stops
  · obtain ⟨pre, post, u, v, rfl, refused, texts, stops⟩ := gather_stops (map_error.mp off)
    rw [rebalanceStringRopeRec_eq] at strings
    obtain ⟨replays, full'⟩ := replays_noBuckets.insertAll full strings
    refine ⟨u, v, rebalance_of_gather refused ?_ (stops (List.replicate post.length none)), ?_⟩
    · rw [texts, leavesIn_none, List.append_nil]
      exact replays.of_prefix full'
    · refine StopsAt.bind (fun join like => rebalanceStringRopeRec_follows like _ _) ?_
        ((stops post).map _)
      rw [rebalanceStringRopeRec_eq]
      exact strings

theorem newStringRope_follows (nesting : Nat) (a b : Rope σ) :
    Follows Stop.nesting True (newStringRope nesting a b) (shallowJoin a b) := by
  intro r joined
  obtain ⟨fits, shallow, rfl⟩ := shallowJoin_ok joined
  cases nesting with
  | zero => exact .inr ⟨trivial, rfl⟩
  | succ nesting =>
    rw [newStringRope, if_neg (Nat.not_lt.mpr fits), if_neg (Nat.not_lt.mpr shallow)]
    exact .inl rfl

theorem newStringRope_agrees (nesting : Nat) (a b : Rope σ) :
    Follows Stop.nesting False (newStringRope (nesting + 1) a b) (shallowJoin a b) := by
  intro r joined
  obtain ⟨fits, shallow, rfl⟩ := shallowJoin_ok joined
  rw [newStringRope, if_neg (Nat.not_lt.mpr fits), if_neg (Nat.not_lt.mpr shallow)]
  exact .inl rfl

theorem newStringRope_refused {a b : Rope σ} (refused : shallowJoin a b = .error .nesting)
    (nesting : Nat) :
    newStringRope (nesting + 1) a b = rebalanceStringRope (newStringRope nesting) (node a b) := by
  obtain ⟨fits, deep⟩ := shallowJoin_refused refused
  rw [newStringRope, if_neg fits, if_pos deep]

/-- A refused join refuses at every depth of the nesting. -/
theorem rebalance_nests {rope : Rope σ}
    (off : rebalanceStringRope shallowJoin rope = .error .nesting) (nesting : Nat) :
    rebalanceStringRope (newStringRope nesting) rope = .error .nesting := by
  induction nesting generalizing rope with
  | zero =>
    obtain ⟨u, v, -, stops⟩ := rebalance_stops off
    exact stops _ (newStringRope_follows 0) rfl
  | succ nesting ih =>
    obtain ⟨u, v, ⟨refused, again⟩, stops⟩ := rebalance_stops off
    refine stops _ (newStringRope_follows (nesting + 1)) ?_
    rw [newStringRope_refused refused]
    exact ih again

theorem rebalance_agrees {rope r : Rope σ} (done : rebalanceStringRope shallowJoin rope = .ok r)
    (nesting : Nat) : rebalanceStringRope (newStringRope (nesting + 1)) rope = .ok r := by
  rcases rebalanceStringRope_follows (newStringRope_agrees nesting) rope r done with same | ⟨no, -⟩
  · exact same
  · exact no.elim

end Ropes
