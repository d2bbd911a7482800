import Mathlib.Data.List.Basic

/-!
# Calls that may be cut off

Rules for calls that end with a value or with an error, where one of the errors says that the call
was cut off before its end: how such calls compose, when one does what another does as long as it
is not cut off, and when a call ends with a value of some kind unless it is cut off.
-/

namespace Outcomes

variable {α α' β β' ε : Type}

section
variable {c : Except ε α} {f : α → Except ε β} {w : β} {e : ε}

theorem ok_ne {v : α} : (.ok v : Except ε α) ≠ .error e := fun eq => by cases eq

theorem bind_ok : c.bind f = .ok w ↔ ∃ v, c = .ok v ∧ f v = .ok w := by
  cases c <;> simp [Except.bind]

theorem bind_error : c.bind f = .error e ↔ c = .error e ∨ ∃ v, c = .ok v ∧ f v = .error e := by
  cases c <;> simp [Except.bind]

theorem map_ok {g : α → β} : c.map g = .ok w ↔ ∃ v, c = .ok v ∧ g v = w := by
  cases c <;> simp [Except.map]

theorem map_error {g : α → β} : c.map g = .error e ↔ c = .error e := by
  cases c <;> simp [Except.map]

end

section
variable {c : Except ε α} {c' : Except ε α'} {h : α → α'} {g : β → β'}

theorem bind_commutes {f : α → Except ε β} {f' : α' → Except ε β'} (same : c' = c.map h)
    (step : ∀ v, f' (h v) = (f v).map g) : c'.bind f' = (c.bind f).map g := by
  subst same
  cases c with
  | error e => rfl
  | ok v => exact step v

theorem map_commutes {f : α → β} {f' : α' → β'} (same : c' = c.map h)
    (step : ∀ v, f' (h v) = g (f v)) : c'.map f' = (c.map f).map g := by
  subst same
  cases c with
  | error e => rfl
  | ok v => exact congrArg Except.ok (step v)

end

variable {stop : ε} {cut : Prop}

/-- What ends in `c` ends alike in `c'`, or is cut off where that may be. -/
def Follows (stop : ε) (cut : Prop) (c' c : Except ε α) : Prop :=
  ∀ v, c = .ok v → c' = .ok v ∨ cut ∧ c' = .error stop

theorem Follows.refl (c : Except ε α) : Follows stop cut c c := fun _ => .inl

theorem Follows.bind {c' c : Except ε α} {f' f : α → Except ε β} (h : Follows stop cut c' c)
    (hf : ∀ v, Follows stop cut (f' v) (f v)) : Follows stop cut (c'.bind f') (c.bind f) := by
  intro w eq
  obtain ⟨v, ends, eq⟩ := bind_ok.mp eq
  rcases h v ends with same | ⟨may, off⟩
  · rw [same]
    exact hf v w eq
  · exact .inr ⟨may, bind_error.mpr (.inl off)⟩

theorem Follows.map {c' c : Except ε α} (h : Follows stop cut c' c) (f : α → β) :
    Follows stop cut (c'.map f) (c.map f) := by
  intro w eq
  obtain ⟨v, ends, eq⟩ := map_ok.mp eq
  rcases h v ends with same | ⟨may, off⟩
  · exact .inl (map_ok.mpr ⟨v, same, eq⟩)
  · exact .inr ⟨may, map_error.mpr off⟩

/-- The call ends so, or it is cut off. -/
def Ends (stop : ε) (c : Except ε α) (Q : α → Prop) : Prop :=
  c = .error stop ∨ ∃ v, c = .ok v ∧ Q v

theorem Ends.bind {c : Except ε α} {f : α → Except ε β} {P : α → Prop} {Q : β → Prop}
    (h : Ends stop c P) (hf : ∀ v, P v → Ends stop (f v) Q) : Ends stop (c.bind f) Q := by
  rcases h with off | ⟨v, rfl, pv⟩
  · exact .inl (bind_error.mpr (.inl off))
  · exact hf v pv

theorem Ends.map {c : Except ε α} {f : α → β} {P : α → Prop} {Q : β → Prop}
    (h : Ends stop c P) (hf : ∀ v, P v → Q (f v)) : Ends stop (c.map f) Q := by
  rcases h with off | ⟨v, rfl, pv⟩
  · exact .inl (map_error.mpr off)
  · exact .inr ⟨f v, rfl, hf v pv⟩

theorem Ends.mono {c : Except ε α} {P Q : α → Prop} (h : Ends stop c P) (hf : ∀ v, P v → Q v) :
    Ends stop c Q := by
  rcases h with off | ⟨v, eq, pv⟩
  · exact .inl off
  · exact .inr ⟨v, eq, hf v pv⟩

end Outcomes
