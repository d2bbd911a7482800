import Mathlib.Algebra.Order.Group.Int
import Goqjs.Binary64Rounding
import Goqjs.Bindings

/-!
# Integers across the boundary

`NewInt64` makes an int32 or a double of a Go integer, and `Int64` cuts the number
off again. What comes back is the double nearest to the integer, so an integer that
a double holds is the one that went in.
-/

namespace Qjs

open Binary64

/-- Some double is the integer. -/
def Held (x : Int) : Prop := HeldNat x.natAbs

/-- No double is nearer to `v` than `x`, and of two the even one is taken. -/
structure Nearest (v x : Int) : Prop where
  held : Held x
  least : ∀ y, Held y → (v - x).natAbs ≤ (v - y).natAbs
  tie : ∀ y, Held y → y ≠ x → (v - x).natAbs = (v - y).natAbs →
    ∃ m k, m % 2 = 0 ∧ 2 ^ 52 ≤ m ∧ m < 2 ^ 53 ∧ x.natAbs = m * 2 ^ k

variable {v x : Int}

theorem held_of_natAbs_le (h : v.natAbs ≤ 2 ^ 53) : Held v := by
  have held := heldNat_of_le h 0
  rwa [Nat.pow_zero, Nat.mul_one] at held

theorem Nearest.eq_iff (h : Nearest v x) : x = v ↔ Held v := by
  constructor
  · rintro rfl
    exact h.held
  · intro held
    have near := h.least v held
    omega

theorem nearest_self (held : Held v) : Nearest v v := by
  refine ⟨held, fun y _ => ?_, fun y _ ne same => ?_⟩
  · omega
  · omega

theorem natAbs_trunc_ofInt (h : v.natAbs < 2 ^ 64) : (ofInt v).trunc.natAbs = rounded v.natAbs := by
  have magnitude := truncAbs_ofNat_eq h (v < 0)
  rw [Double.trunc, ofInt, Double.signed, magnitude]
  split_ifs <;> omega

/-- On the side of `v` the distance is that of the magnitudes. -/
theorem natAbs_sub_signed (v : Int) (r : Nat) :
    (v - if v < 0 then -(r : Int) else r).natAbs = distance v.natAbs r := by
  unfold distance
  split_ifs <;> omega

/-- Elsewhere it is no less. -/
theorem distance_natAbs_le (v y : Int) : distance v.natAbs y.natAbs ≤ (v - y).natAbs := by
  unfold distance
  omega

/-- On the other side of zero it is the sum. -/
theorem natAbs_sub_opposite {v y : Int} {r : Nat} (ne : y ≠ if v < 0 then -(r : Int) else r)
    (same : y.natAbs = r) : (v - y).natAbs = v.natAbs + r := by
  split_ifs at ne <;> omega

theorem nearest_trunc (h : v.natAbs < 2 ^ 64) : Nearest v (ofInt v).trunc := by
  have value : (ofInt v).trunc = if v < 0 then -(rounded v.natAbs : Int) else rounded v.natAbs := by
    rw [Double.trunc, ofInt, Double.signed, truncAbs_ofNat_eq h, negative_ofNat]
    simp only [decide_eq_true_eq]
  have apart : (v - (ofInt v).trunc).natAbs = distance v.natAbs (rounded v.natAbs) := by
    rw [value, natAbs_sub_signed]
  refine ⟨?_, fun y held => ?_, fun y held ne same => ?_⟩
  · rw [Held, natAbs_trunc_ofInt h]
    exact heldNat_rounded _
  · rw [apart]
    exact (rounded_nearest v.natAbs held).trans (distance_natAbs_le v y)
  · have other : y.natAbs ≠ rounded v.natAbs := by
      intro eq
      have zero := rounded_nearest v.natAbs (heldNat_of_lt (n := 0) (by decide))
      rw [apart, natAbs_sub_opposite (value ▸ ne) eq] at same
      rw [value] at ne
      unfold distance at same zero
      split_ifs at ne <;> omega
    rw [natAbs_trunc_ofInt h]
    apply rounded_tie held other
    apply (rounded_nearest v.natAbs held).antisymm
    calc distance v.natAbs y.natAbs ≤ (v - y).natAbs := distance_natAbs_le v y
      _ = distance v.natAbs (rounded v.natAbs) := by rw [← same, apart]

/-- The conversion back cuts off, except that `2 ^ 63` is the least integer modulo `2 ^ 64`. -/
theorem toInt64_float64 (h : v.natAbs ≤ 2 ^ 63) :
    toInt64 (.float64 (ofInt v)) =
      if (ofInt v).trunc = 2 ^ 63 then -2 ^ 63 else (ofInt v).trunc := by
  have magnitude := natAbs_trunc_ofInt (v := v) (by omega)
  rcases exponent_ofNat_cases h (v < 0) with ⟨range, below⟩ | ⟨exponent, mantissa, top⟩
  · have inside : (ofInt v).exponent ≤ 1023 + 62 := range
    rw [toInt64, if_pos inside, if_neg (by omega)]
  · have exponent' : (ofInt v).exponent = 1086 := exponent
    have mantissa' : (ofInt v).mantissa = 2 ^ 52 := mantissa
    rw [toInt64, exponent', mantissa', if_neg (by decide), if_pos (by decide)]
    have least : applySign 64 (ofInt v).negative
        (wrap 64 (2 ^ 52 <<< (1086 - 1023 - 52))) = -2 ^ 63 := by
      cases (ofInt v).negative <;> decide
    rw [least]
    split_ifs <;> omega

/-- Every integer of 64 bits comes back as the double nearest to it, so exactly those that a double
holds come back as they were. -/
theorem int64_through_engine (v : Int) (low : -2 ^ 63 ≤ v) (high : v < 2 ^ 63) :
    (toInt64 (newInt64 v) = v ↔ Held v) ∧
      (v.natAbs ≤ 2 ^ 53 → toInt64 (newInt64 v) = v) ∧
      ∃ x, Nearest v x ∧ toInt64 (newInt64 v) = if x = 2 ^ 63 then -2 ^ 63 else x := by
  have answer : ∃ x, Nearest v x ∧ toInt64 (newInt64 v) = if x = 2 ^ 63 then -2 ^ 63 else x := by
    unfold newInt64
    split_ifs with small
    · have held : Held v := held_of_natAbs_le (by omega)
      refine ⟨v, nearest_self held, ?_⟩
      rw [if_neg (by omega)]
      rfl
    · exact ⟨_, nearest_trunc (by omega), toInt64_float64 (by omega)⟩
  obtain ⟨x, near, back⟩ := answer
  have exact_iff : toInt64 (newInt64 v) = v ↔ Held v := by
    rw [back, ← near.eq_iff]
    by_cases top : x = 2 ^ 63
    · have lowest : ¬ v = -2 ^ 63 := by
        rintro rfl
        have own := near.eq_iff.mpr ⟨1, 63, by decide, rfl⟩
        omega
      rw [if_pos top]
      omega
    · rw [if_neg top]
  exact ⟨exact_iff, fun small => exact_iff.mpr (held_of_natAbs_le small), x, near, back⟩

/-- The least integer is a power of two. -/
theorem int64_through_engine_least : toInt64 (newInt64 (-2 ^ 63)) = -2 ^ 63 :=
  (int64_through_engine (-2 ^ 63) (by decide) (by decide)).1.mpr ⟨1, 63, by decide, rfl⟩

/-- The greatest integer is rounded up and comes back as the least. -/
example : toInt64 (newInt64 (2 ^ 63 - 1)) = -2 ^ 63 := by decide +kernel

/-- Beyond 53 bits an integer is rounded. -/
theorem int64_through_engine_fails :
    ¬ ∀ v : Int, -2 ^ 63 ≤ v → v < 2 ^ 63 → toInt64 (newInt64 v) = v := by
  intro h
  have rounded := h (2 ^ 53 + 1) (by decide) (by decide)
  have value : toInt64 (newInt64 (2 ^ 53 + 1)) = 2 ^ 53 := by decide +kernel
  rw [value] at rounded
  omega

end Qjs
