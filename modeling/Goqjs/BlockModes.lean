import Mathlib.Data.List.Basic

/-!
# Modes of a block cipher

Chaining over any blocks that can be mixed, and PKCS#7 padding of bytes. Both are
undone by what undoes one block and by the last byte.
-/

namespace BlockModes

section Chain

variable {B : Type} (mix : B → B → B)

/-- Each block is mixed with the ciphertext of the one before. -/
def chain (encrypt : B → B) : B → List B → List B
  | _, [] => []
  | prev, b :: rest => encrypt (mix b prev) :: chain encrypt (encrypt (mix b prev)) rest

def unchain (decrypt : B → B) : B → List B → List B
  | _, [] => []
  | prev, c :: rest => mix (decrypt c) prev :: unchain decrypt c rest

/-- What encrypts a block is undone by what decrypts one. -/
structure Inverts (ok : B → Prop) (encrypt decrypt : B → B) : Prop where
  encrypts : ∀ b, ok b → ok (encrypt b)
  decrypts : ∀ b, ok b → decrypt (encrypt b) = b

/-- Mixing with a block a second time takes it out again. -/
structure Mixes (ok : B → Prop) : Prop where
  closed : ∀ a b, ok a → ok b → ok (mix a b)
  twice : ∀ a b, ok a → ok b → mix (mix a b) b = a

variable {mix} {ok : B → Prop} {encrypt decrypt : B → B}

theorem ok_chain (inverts : Inverts ok encrypt decrypt) (mixes : Mixes mix ok) {prev : B}
    (start : ok prev) {blocks : List B} (h : ∀ b ∈ blocks, ok b) :
    ∀ c ∈ chain mix encrypt prev blocks, ok c := by
  induction blocks generalizing prev with
  | nil => simp [chain]
  | cons b rest ih =>
    have next : ok (encrypt (mix b prev)) :=
      inverts.encrypts _ (mixes.closed _ _ (h b List.mem_cons_self) start)
    intro c hc
    rcases List.mem_cons.mp hc with rfl | hc
    · exact next
    · exact ih next (fun d hd => h d (List.mem_cons_of_mem _ hd)) c hc

theorem length_chain (prev : B) (blocks : List B) :
    (chain mix encrypt prev blocks).length = blocks.length := by
  induction blocks generalizing prev with
  | nil => rfl
  | cons b rest ih => exact congrArg (· + 1) (ih _)

/-- The chain is undone from its front, with the blocks as they were sent. -/
theorem unchain_chain (inverts : Inverts ok encrypt decrypt) (mixes : Mixes mix ok) {prev : B}
    (start : ok prev) {blocks : List B} (h : ∀ b ∈ blocks, ok b) :
    unchain mix decrypt prev (chain mix encrypt prev blocks) = blocks := by
  induction blocks generalizing prev with
  | nil => rfl
  | cons b rest ih =>
    have first := h b List.mem_cons_self
    have mixed := mixes.closed _ _ first start
    have next := inverts.encrypts _ mixed
    rw [chain, unchain, inverts.decrypts _ mixed, mixes.twice _ _ first start,
      ih next fun d hd => h d (List.mem_cons_of_mem _ hd)]

theorem map_decrypt (inverts : Inverts ok encrypt decrypt) {blocks : List B}
    (h : ∀ b ∈ blocks, ok b) : (blocks.map encrypt).map decrypt = blocks := by
  rw [List.map_map]
  conv_rhs => rw [← List.map_id blocks]
  exact List.map_congr_left fun b hb => inverts.decrypts b (h b hb)

end Chain

/-- Take PKCS#7 padding off: the last byte says how many bytes of its value are too many. -/
def unpad (size : Nat) (padded : List UInt8) : Option (List UInt8) :=
  match padded.getLast? with
  | none => none
  | some n =>
    if 1 ≤ n.toNat ∧ n.toNat ≤ size ∧ List.replicate n.toNat n <:+ padded then
      some (padded.take (padded.length - n.toNat))
    else none

theorem unpad_append {size k : Nat} (small : size < 256) (least : 1 ≤ k) (most : k ≤ size)
    (p : List UInt8) : unpad size (p ++ List.replicate k (.ofNat k)) = some p := by
  have value : (UInt8.ofNat k).toNat = k := by
    simp only [UInt8.toNat_ofNat']
    omega
  have last : (p ++ List.replicate k (UInt8.ofNat k)).getLast? = some (.ofNat k) := by
    rw [List.getLast?_append, List.getLast?_replicate, if_neg (by omega)]
    rfl
  have suffix : List.replicate k (UInt8.ofNat k) <:+ p ++ List.replicate k (UInt8.ofNat k) :=
    List.suffix_append _ _
  rw [unpad, last]
  simp only [value]
  rw [if_pos ⟨least, most, suffix⟩, List.length_append, List.length_replicate, Nat.add_sub_cancel,
    List.take_left]

end BlockModes
