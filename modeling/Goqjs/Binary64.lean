import Mathlib.Algebra.Group.Nat.Defs
import Mathlib.Data.Nat.Log

/-!
# Integers as binary64

A double is its three fields. An integer is rounded to 53 significant bits, ties
to even; a double is cut off to an integer. Integers below `2 ^ 53` in magnitude
come back.
-/

namespace Binary64

structure Double where
  negative : Bool
  exponent : Nat
  fraction : Nat
  exponent_lt : exponent < 2048
  fraction_lt : fraction < 2 ^ 52
  deriving DecidableEq

def isfinite (d : Double) : Bool := d.exponent < 2047

def isnan (d : Double) : Bool := d.exponent == 2047 && d.fraction != 0

/-- `NAN`. -/
def nan : Double := ⟨false, 2047, 1 <<< 51, by decide, by decide⟩

theorem isnan_nan : isnan nan = true := rfl

/-- The significand of a normal number, the hidden bit included. -/
def Double.mantissa (d : Double) : Nat := 2 ^ 52 + d.fraction

/-- `n / 2 ^ k`, to the nearest, ties to even. -/
def roundShift (n k : Nat) : Nat :=
  let q := n / 2 ^ k
  let r := n % 2 ^ k
  if 2 * r > 2 ^ k ∨ (2 * r = 2 ^ k ∧ q % 2 = 1) then q + 1 else q

/-- Significand, of 53 bits, and power of two of a rounded positive number. -/
def scaled (n : Nat) : Nat × Nat :=
  if n.log2 ≤ 52 then (n * 2 ^ (52 - n.log2), n.log2)
  else
    let q := roundShift n (n.log2 - 52)
    if q = 2 ^ 53 then (2 ^ 52, n.log2 + 1) else (q, n.log2)

/-- The double of a number below `2 ^ 64`; larger ones are not needed and become infinite. -/
def ofNat (negative : Bool) (n : Nat) : Double :=
  if n = 0 then ⟨negative, 0, 0, by decide, by decide⟩
  else if h : 1023 + (scaled n).2 < 2047 then
    ⟨negative, 1023 + (scaled n).2, (scaled n).1 % 2 ^ 52, by omega, Nat.mod_lt _ (by decide)⟩
  else ⟨negative, 2047, 0, by decide, by decide⟩

def ofInt (i : Int) : Double := ofNat (i < 0) i.natAbs

/-- The magnitude cut off to an integer. -/
def Double.truncAbs (d : Double) : Nat :=
  if d.exponent < 1023 then 0
  else d.mantissa * 2 ^ (d.exponent - 1023) / 2 ^ 52

def Double.signed (d : Double) (n : Nat) : Int := if d.negative then -(n : Int) else n

/-- The C conversion to an integer type that holds the result. -/
def Double.trunc (d : Double) : Int := d.signed d.truncAbs

theorem log2_bounds {n : Nat} (h : n ≠ 0) : 2 ^ n.log2 ≤ n ∧ n < 2 ^ (n.log2 + 1) :=
  ⟨Nat.log2_self_le h, Nat.lt_log2_self⟩

theorem log2_le {n : Nat} (h : n < 2 ^ 53) : n.log2 ≤ 52 := by
  by_cases zero : n = 0
  · subst zero
    exact Nat.zero_le _
  · have below : 2 ^ n.log2 < 2 ^ 53 := (log2_bounds zero).1.trans_lt h
    have small := (Nat.pow_lt_pow_iff_right (by decide : 1 < 2)).mp below
    omega

/-- No rounding below `2 ^ 53`. -/
theorem scaled_of_lt {n : Nat} (h : n < 2 ^ 53) : scaled n = (n * 2 ^ (52 - n.log2), n.log2) := by
  rw [scaled, if_pos (log2_le h)]

theorem truncAbs_ofNat {negative : Bool} {n : Nat} (h : n < 2 ^ 53) :
    (ofNat negative n).truncAbs = n := by
  by_cases zero : n = 0
  · subst zero
    rfl
  obtain ⟨low, high⟩ := log2_bounds zero
  have small := log2_le h
  have scale := scaled_of_lt h
  have split : 2 ^ n.log2 * 2 ^ (52 - n.log2) = 2 ^ 52 := by
    rw [← Nat.pow_add]
    congr 1
    omega
  have mantissaLow : 2 ^ 52 ≤ n * 2 ^ (52 - n.log2) := by
    rw [← split]
    exact Nat.mul_le_mul_right _ low
  have mantissaHigh : n * 2 ^ (52 - n.log2) < 2 ^ 52 * 2 := by
    rw [← split, Nat.mul_right_comm]
    exact Nat.mul_lt_mul_of_pos_right (by rwa [Nat.pow_succ] at high) (Nat.two_pow_pos _)
  have fraction : 2 ^ 52 + n * 2 ^ (52 - n.log2) % 2 ^ 52 = n * 2 ^ (52 - n.log2) := by
    omega
  have back : n * 2 ^ (52 - n.log2) * 2 ^ n.log2 = n * 2 ^ 52 := by
    rw [Nat.mul_assoc, Nat.mul_comm (2 ^ (52 - n.log2)), split]
  rw [ofNat, if_neg zero, dif_pos (by rw [scale]; omega)]
  simp only [Double.truncAbs, Double.mantissa, scale, fraction]
  rw [if_neg (by omega), Nat.add_sub_cancel_left, back, Nat.mul_div_cancel _ (Nat.two_pow_pos _)]

theorem negative_ofNat (negative : Bool) (n : Nat) : (ofNat negative n).negative = negative := by
  unfold ofNat
  split_ifs <;> rfl

theorem trunc_ofInt {i : Int} (h : i.natAbs < 2 ^ 53) : (ofInt i).trunc = i := by
  rw [Double.trunc, ofInt, truncAbs_ofNat h, Double.signed, negative_ofNat]
  split_ifs with neg
  · have hneg : i < 0 := by simpa using neg
    omega
  · have hpos : ¬ i < 0 := by simpa using neg
    omega

/-- The exponent field stays in the range of the direct conversion. -/
theorem exponent_ofInt_le {i : Int} (h : i.natAbs < 2 ^ 53) : (ofInt i).exponent ≤ 1075 := by
  have small := log2_le h
  have scale := scaled_of_lt h
  rw [ofInt, ofNat]
  split_ifs with zero range
  · exact Nat.zero_le _
  · simp only [scale]
    omega
  · rw [scale] at range
    omega

end Binary64
