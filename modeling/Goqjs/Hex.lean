import Mathlib.Data.List.Basic

/-!
# Hexadecimal text

A byte is two digits, the high one first. Digits are read in either case.
-/

namespace Hex

abbrev Bytes := List UInt8

/-- The digit of a number below 16; `a` is where the letters start. -/
def digit (a : UInt8) (n : Nat) : UInt8 :=
  if n < 10 then .ofNat (0x30 + n) else .ofNat (a.toNat + (n - 10))

/-- `0-9`, `a-f`. -/
def lower (n : Nat) : UInt8 := digit 0x61 n

/-- `0-9`, `A-F`. -/
def upper (n : Nat) : UInt8 := digit 0x41 n

def value (c : UInt8) : Option Nat :=
  if 0x30 ≤ c.toNat ∧ c.toNat ≤ 0x39 then some (c.toNat - 0x30)
  else if 0x61 ≤ c.toNat ∧ c.toNat ≤ 0x66 then some (c.toNat - 0x61 + 10)
  else if 0x41 ≤ c.toNat ∧ c.toNat ≤ 0x46 then some (c.toNat - 0x41 + 10)
  else none

/-- `hex.EncodeToString`. -/
def encodeToString (src : Bytes) : Bytes :=
  src.flatMap (fun b => [lower (b.toNat / 16), lower (b.toNat % 16)])

/-- `hex.DecodeString`; `none` where it returns an error. -/
def decodeString : Bytes → Option Bytes
  | [] => some []
  | [_] => none
  | h :: l :: rest =>
    match value h, value l, decodeString rest with
    | some x, some y, some bytes => some (.ofNat (16 * x + y) :: bytes)
    | _, _, _ => none

theorem value_lower {n : Nat} (h : n < 16) : value (lower n) = some n := by
  have all : ∀ n : Fin 16, value (lower n.1) = some n.1 := by decide
  exact all ⟨n, h⟩

theorem value_upper {n : Nat} (h : n < 16) : value (upper n) = some n := by
  have all : ∀ n : Fin 16, value (upper n.1) = some n.1 := by decide
  exact all ⟨n, h⟩

theorem encodeToString_cons (b : UInt8) (src : Bytes) :
    encodeToString (b :: src) =
      lower (b.toNat / 16) :: lower (b.toNat % 16) :: encodeToString src := rfl

theorem decodeString_encodeToString (src : Bytes) :
    decodeString (encodeToString src) = some src := by
  induction src with
  | nil => rfl
  | cons b src ih =>
    have hb := b.toNat_lt
    rw [encodeToString_cons, decodeString, value_lower (show b.toNat / 16 < 16 by omega),
      value_lower (Nat.mod_lt _ (by decide)), ih]
    simp only [Option.some.injEq, List.cons.injEq, and_true]
    rw [Nat.div_add_mod, UInt8.ofNat_toNat]

theorem lower_ascii {n : Nat} (h : n < 16) : (lower n).toNat < 0x80 := by
  have all : ∀ n : Fin 16, (lower n.1).toNat < 0x80 := by decide
  exact all ⟨n, h⟩

/-- Only digits are written. -/
theorem value_of_mem_encodeToString {src : Bytes} {c : UInt8} (h : c ∈ encodeToString src) :
    value c ≠ none := by
  obtain ⟨b, _, hc⟩ := List.mem_flatMap.mp h
  have hb := b.toNat_lt
  rcases List.mem_cons.mp hc with rfl | hc
  · simp [value_lower (show b.toNat / 16 < 16 by omega)]
  · obtain rfl := List.mem_singleton.mp hc
    simp [value_lower (Nat.mod_lt b.toNat (by decide : 0 < 16))]

theorem encodeToString_ascii (src : Bytes) : ∀ c ∈ encodeToString src, c.toNat < 0x80 := by
  intro c hc
  obtain ⟨b, _, hc⟩ := List.mem_flatMap.mp hc
  have hb := b.toNat_lt
  rcases List.mem_cons.mp hc with rfl | hc
  · exact lower_ascii (by omega)
  · obtain rfl := List.mem_singleton.mp hc
    exact lower_ascii (Nat.mod_lt _ (by decide))

end Hex
