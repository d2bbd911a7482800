import Mathlib.Data.List.Basic

/-!
# Buffered channels

A channel of positive capacity is the list of the values sent and not yet
received, oldest first; that it never holds more than its capacity is part of
the type. `send` and `recv` give `none` where the operation blocks, so a
`select` with a `default` branch is a match on the result. Values of blocked
senders are not in the channel: a sender stays at its `send` until there is room.
-/

universe u

structure GoChan (α : Type u) (cap : Nat) where
  buffer : List α
  bounded : buffer.length ≤ cap

namespace GoChan

variable {α : Type u} {cap : Nat}

def empty (α : Type u) (cap : Nat) : GoChan α cap := ⟨[], Nat.zero_le cap⟩

/-- `c <- a`; `none` while the buffer is full. -/
def send (c : GoChan α cap) (a : α) : Option (GoChan α cap) :=
  if room : c.buffer.length < cap then
    some ⟨c.buffer ++ [a], by rw [List.length_append]; exact room⟩
  else none

/-- `<-c`; `none` while the buffer is empty. -/
def recv : GoChan α cap → Option (α × GoChan α cap)
  | ⟨[], _⟩ => none
  | ⟨a :: rest, bounded⟩ => some (a, ⟨rest, Nat.le_of_succ_le bounded⟩)

@[ext] theorem ext {c d : GoChan α cap} (h : c.buffer = d.buffer) : c = d := by
  cases c
  cases d
  simpa using h

@[simp] theorem empty_buffer : (empty α cap).buffer = [] := rfl

theorem send_eq_some {c d : GoChan α cap} {a : α} :
    c.send a = some d ↔ c.buffer.length < cap ∧ d.buffer = c.buffer ++ [a] := by
  unfold send
  split
  · rename_i room
    constructor
    · intro h
      obtain rfl := Option.some.inj h
      exact ⟨room, rfl⟩
    · rintro ⟨_, h⟩
      exact congrArg some (ext h.symm)
  · rename_i full
    simp [full]

theorem send_eq_none {c : GoChan α cap} {a : α} : c.send a = none ↔ c.buffer.length = cap := by
  have := c.bounded
  unfold send
  split <;> simp <;> omega

theorem send_of_room {c : GoChan α cap} (a : α) (room : c.buffer.length < cap) :
    ∃ d : GoChan α cap, c.send a = some d ∧ d.buffer = c.buffer ++ [a] := by
  refine ⟨_, dif_pos room, rfl⟩

theorem recv_eq_some {c d : GoChan α cap} {a : α} :
    c.recv = some (a, d) ↔ c.buffer = a :: d.buffer := by
  obtain ⟨buffer, bounded⟩ := c
  cases buffer with
  | nil => simp [recv]
  | cons b rest =>
    constructor
    · intro h
      obtain ⟨rfl, rfl⟩ := Prod.mk.inj (Option.some.inj h)
      rfl
    · intro h
      obtain ⟨rfl, rfl⟩ := List.cons.inj h
      rfl

theorem recv_eq_none {c : GoChan α cap} : c.recv = none ↔ c.buffer = [] := by
  obtain ⟨buffer, bounded⟩ := c
  cases buffer <;> simp [recv]

theorem recv_of_buffer {c : GoChan α cap} {a : α} {rest : List α} (h : c.buffer = a :: rest) :
    ∃ d : GoChan α cap, c.recv = some (a, d) ∧ d.buffer = rest := by
  obtain ⟨buffer, bounded⟩ := c
  obtain rfl : buffer = a :: rest := h
  exact ⟨_, rfl, rfl⟩

end GoChan
