import Goqjs.Binary64

/-!
# Rounding to the nearest double

A double holds the integers of at most 53 significant bits. An integer becomes the
nearest of them, and of two that are equally near the one with the even significand.
-/

namespace Binary64

/-- `n` has a significand of at most 53 bits. -/
def HeldNat (n : Nat) : Prop := ∃ m k : Nat, m < 2 ^ 53 ∧ n = m * 2 ^ k

/-- `|a - b|`. -/
def distance (a b : Nat) : Nat := a - b + (b - a)

/-- The magnitude that `ofNat` rounds to. -/
def rounded (n : Nat) : Nat :=
  if n.log2 ≤ 52 then n else roundShift n (n.log2 - 52) * 2 ^ (n.log2 - 52)

theorem two_pow_mul {a b c : Nat} (h : a + b = c) : 2 ^ a * 2 ^ b = 2 ^ c := by
  rw [← Nat.pow_add, h]

theorem ne_zero_of_log2 {n : Nat} (h : ¬ n.log2 ≤ 52) : n ≠ 0 := by
  rintro rfl
  exact h (Nat.zero_le _)

/-- Another multiple is a whole step below or above. -/
theorem mul_apart {m q : Nat} (d : Nat) (h : m ≠ q) : m * d + d ≤ q * d ∨ q * d + d ≤ m * d := by
  rcases Nat.lt_or_gt_of_ne h with below | above
  · left
    have step := Nat.mul_le_mul_right d (Nat.succ_le_of_lt below)
    rwa [Nat.succ_mul] at step
  · right
    have step := Nat.mul_le_mul_right d (Nat.succ_le_of_lt above)
    rwa [Nat.succ_mul] at step

theorem roundShift_nearest (n k m : Nat) :
    distance n (roundShift n k * 2 ^ k) ≤ distance n (m * 2 ^ k) ∧
      (m ≠ roundShift n k → distance n (roundShift n k * 2 ^ k) = distance n (m * 2 ^ k) →
        roundShift n k % 2 = 0) := by
  have parts := Nat.div_add_mod n (2 ^ k)
  have small := Nat.mod_lt n (Nat.two_pow_pos k)
  rw [Nat.mul_comm] at parts
  have next : (n / 2 ^ k + 1) * 2 ^ k = n / 2 ^ k * 2 ^ k + 2 ^ k := Nat.succ_mul _ _
  simp only [roundShift]
  split_ifs with up
  · rw [next]
    by_cases lower : m = n / 2 ^ k
    · subst lower
      unfold distance
      omega
    · by_cases same : m = n / 2 ^ k + 1
      · subst same
        rw [next]
        exact ⟨le_rfl, fun h => absurd rfl h⟩
      · have far := mul_apart (2 ^ k) lower
        have far' := mul_apart (2 ^ k) same
        unfold distance
        omega
  · by_cases same : m = n / 2 ^ k
    · subst same
      exact ⟨le_rfl, fun h => absurd rfl h⟩
    · have far := mul_apart (2 ^ k) same
      by_cases upper : m = n / 2 ^ k + 1
      · subst upper
        rw [next]
        unfold distance
        omega
      · have far' := mul_apart (2 ^ k) upper
        unfold distance
        omega

/-- A double of a smaller exponent lies below the binade. -/
theorem HeldNat.grid {y : Nat} (h : HeldNat y) (k : Nat) :
    (∃ m, y = m * 2 ^ k) ∨ y < 2 ^ 52 * 2 ^ k := by
  obtain ⟨m, j, small, rfl⟩ := h
  by_cases le : k ≤ j
  · left
    refine ⟨m * 2 ^ (j - k), ?_⟩
    rw [Nat.mul_assoc, ← Nat.pow_add, Nat.sub_add_cancel le]
  · right
    have below : m * 2 ^ j < 2 ^ 53 * 2 ^ j := Nat.mul_lt_mul_of_pos_right small (Nat.two_pow_pos j)
    have step : 2 ^ 53 * 2 ^ j ≤ 2 ^ 52 * 2 ^ k := by
      rw [← Nat.pow_add, ← Nat.pow_add]
      exact Nat.pow_le_pow_right (by decide) (by omega)
    exact below.trans_le step

/-- The significand of a number with more than 53 bits, before a carry. -/
theorem roundShift_bounds {n : Nat} (h : ¬ n.log2 ≤ 52) :
    2 ^ 52 ≤ roundShift n (n.log2 - 52) ∧ roundShift n (n.log2 - 52) ≤ 2 ^ 53 := by
  obtain ⟨low, high⟩ := log2_bounds (ne_zero_of_log2 h)
  have lowest : 2 ^ 52 ≤ n / 2 ^ (n.log2 - 52) := by
    rw [Nat.le_div_iff_mul_le (Nat.two_pow_pos _), ← Nat.pow_add]
    rwa [show 52 + (n.log2 - 52) = n.log2 by omega]
  have highest : n / 2 ^ (n.log2 - 52) < 2 ^ 53 := by
    rw [Nat.div_lt_iff_lt_mul (Nat.two_pow_pos _), ← Nat.pow_add]
    rwa [show 53 + (n.log2 - 52) = n.log2 + 1 by omega]
  simp only [roundShift]
  split_ifs <;> omega

theorem heldNat_of_lt {n : Nat} (h : n < 2 ^ 53) : HeldNat n := ⟨n, 0, h, (Nat.mul_one n).symm⟩

theorem heldNat_of_le {m : Nat} (h : m ≤ 2 ^ 53) (k : Nat) : HeldNat (m * 2 ^ k) := by
  by_cases carry : m = 2 ^ 53
  · subst carry
    exact ⟨2 ^ 52, k + 1, by decide, (two_pow_mul rfl).trans (two_pow_mul (by omega)).symm⟩
  · exact ⟨m, k, by omega, rfl⟩

theorem lt_of_log2_le {n : Nat} (h : n.log2 ≤ 52) : n < 2 ^ 53 :=
  Nat.lt_log2_self.trans_le (Nat.pow_le_pow_right (by decide) (by omega))

theorem heldNat_rounded (n : Nat) : HeldNat (rounded n) := by
  unfold rounded
  split_ifs with small
  · exact heldNat_of_lt (lt_of_log2_le small)
  · exact heldNat_of_le (roundShift_bounds small).2 _

/-- What lies below the binade is farther off than the start of the binade. -/
theorem roundShift_near {n : Nat} (h : ¬ n.log2 ≤ 52) {y : Nat}
    (below : y < 2 ^ 52 * 2 ^ (n.log2 - 52)) :
    distance n (roundShift n (n.log2 - 52) * 2 ^ (n.log2 - 52)) < distance n y := by
  have first := (roundShift_nearest n (n.log2 - 52) (2 ^ 52)).1
  have low := (log2_bounds (ne_zero_of_log2 h)).1
  have binade : 2 ^ 52 * 2 ^ (n.log2 - 52) = 2 ^ n.log2 := two_pow_mul (by omega)
  rw [binade] at first below
  unfold distance at first ⊢
  omega

theorem rounded_nearest (n : Nat) {y : Nat} (held : HeldNat y) :
    distance n (rounded n) ≤ distance n y := by
  unfold rounded
  split_ifs with small
  · unfold distance
    omega
  · rcases held.grid (n.log2 - 52) with ⟨m, rfl⟩ | below
    · exact (roundShift_nearest n _ m).1
    · exact (roundShift_near small below).le

theorem scaled_of_gt {n : Nat} (h : ¬ n.log2 ≤ 52) :
    2 ^ 52 ≤ (scaled n).1 ∧ (scaled n).1 < 2 ^ 53 ∧ n.log2 ≤ (scaled n).2 ∧
      (scaled n).2 ≤ n.log2 + 1 ∧ (scaled n).1 * 2 ^ ((scaled n).2 - 52) = rounded n := by
  obtain ⟨low, high⟩ := roundShift_bounds h
  simp only [scaled, rounded, if_neg h]
  split_ifs with carry
  · refine ⟨le_rfl, Nat.pow_lt_pow_right (by decide) (by decide), Nat.le_succ _, le_rfl, ?_⟩
    rw [carry]
    exact (two_pow_mul rfl).trans (two_pow_mul (by omega)).symm
  · exact ⟨low, by omega, le_rfl, Nat.le_succ _, rfl⟩

theorem exponent_ofNat {n : Nat} (nonzero : n ≠ 0) (range : 1023 + (scaled n).2 < 2047)
    (negative : Bool) : (ofNat negative n).exponent = 1023 + (scaled n).2 := by
  rw [ofNat, if_neg nonzero, dif_pos range]

theorem mantissa_ofNat {n : Nat} (h : ¬ n.log2 ≤ 52) (range : 1023 + (scaled n).2 < 2047)
    (negative : Bool) : (ofNat negative n).mantissa = (scaled n).1 := by
  obtain ⟨low, high, _⟩ := scaled_of_gt h
  rw [ofNat, if_neg (ne_zero_of_log2 h), dif_pos range]
  change 2 ^ 52 + (scaled n).1 % 2 ^ 52 = (scaled n).1
  omega

theorem log2_le_of_lt {n : Nat} (h : n < 2 ^ 64) : n.log2 ≤ 63 := by
  by_cases zero : n = 0
  · subst zero
    exact Nat.zero_le _
  · have below : 2 ^ n.log2 < 2 ^ 64 := (log2_bounds zero).1.trans_lt h
    have small := (Nat.pow_lt_pow_iff_right (by decide : 1 < 2)).mp below
    omega

/-- The double of an integer is the integer that it is rounded to. -/
theorem truncAbs_ofNat_eq {n : Nat} (h : n < 2 ^ 64) (negative : Bool) :
    (ofNat negative n).truncAbs = rounded n := by
  by_cases small : n.log2 ≤ 52
  · rw [truncAbs_ofNat (lt_of_log2_le small), rounded, if_pos small]
  · have bound := log2_le_of_lt h
    obtain ⟨_, _, least, most, value⟩ := scaled_of_gt small
    have range : 1023 + (scaled n).2 < 2047 := by omega
    have split : 2 ^ ((scaled n).2 - 52) * 2 ^ 52 = 2 ^ (scaled n).2 := two_pow_mul (by omega)
    rw [Double.truncAbs, exponent_ofNat (ne_zero_of_log2 small) range, mantissa_ofNat small range,
      if_neg (by omega), Nat.add_sub_cancel_left, ← split, ← Nat.mul_assoc, value,
      Nat.mul_div_cancel _ (Nat.two_pow_pos _)]

/-- Where another double is as near, the significand is even. -/
theorem rounded_tie {n y : Nat} (held : HeldNat y) (ne : y ≠ rounded n)
    (tie : distance n (rounded n) = distance n y) :
    ∃ m k, m % 2 = 0 ∧ 2 ^ 52 ≤ m ∧ m < 2 ^ 53 ∧ rounded n = m * 2 ^ k := by
  by_cases small : n.log2 ≤ 52
  · rw [rounded, if_pos small] at ne tie
    unfold distance at tie
    omega
  · obtain ⟨low, high, _, _, value⟩ := scaled_of_gt small
    refine ⟨(scaled n).1, (scaled n).2 - 52, ?_, low, high, value.symm⟩
    simp only [rounded, if_neg small] at ne tie
    rcases held.grid (n.log2 - 52) with ⟨m, rfl⟩ | below
    · have other : m ≠ roundShift n (n.log2 - 52) := by
        rintro rfl
        exact ne rfl
      have even := (roundShift_nearest n _ m).2 other tie
      simp only [scaled, if_neg small]
      split_ifs
      · omega
      · exact even
    · have farther := roundShift_near small below
      omega

/-- Up to `2 ^ 63` the exponent field tells whether the number was rounded up to `2 ^ 63`. -/
theorem exponent_ofNat_cases {n : Nat} (h : n ≤ 2 ^ 63) (negative : Bool) :
    (ofNat negative n).exponent ≤ 1085 ∧ rounded n < 2 ^ 63 ∨
      (ofNat negative n).exponent = 1086 ∧ (ofNat negative n).mantissa = 2 ^ 52 ∧
        rounded n = 2 ^ 63 := by
  by_cases small : n.log2 ≤ 52
  · have lt := lt_of_log2_le small
    left
    constructor
    · by_cases zero : n = 0
      · subst zero
        exact Nat.zero_le _
      · have scale := scaled_of_lt lt
        rw [exponent_ofNat zero (by rw [scale]; omega), scale]
        omega
    · rw [rounded, if_pos small]
      omega
  · have bound : n.log2 ≤ 63 := log2_le_of_lt (by omega)
    obtain ⟨low, high, least, most, value⟩ := scaled_of_gt small
    have range : 1023 + (scaled n).2 < 2047 := by omega
    have below : rounded n ≤ 2 ^ 63 := by
      have near := rounded_nearest n (y := 2 ^ 63) ⟨1, 63, by decide, (Nat.one_mul _).symm⟩
      unfold distance at near
      omega
    rw [exponent_ofNat (ne_zero_of_log2 small) range, mantissa_ofNat small range]
    rcases Nat.lt_trichotomy (scaled n).2 63 with lower | same | higher
    · left
      have step : (scaled n).1 * 2 ^ ((scaled n).2 - 52) < 2 ^ 53 * 2 ^ ((scaled n).2 - 52) :=
        Nat.mul_lt_mul_of_pos_right high (Nat.two_pow_pos _)
      have power : 2 ^ 53 * 2 ^ ((scaled n).2 - 52) ≤ 2 ^ 63 := by
        rw [← Nat.pow_add]
        exact Nat.pow_le_pow_right (by decide) (by omega)
      omega
    · right
      rw [same] at value
      omega
    · have step : 2 ^ 52 * 2 ^ ((scaled n).2 - 52) ≤ (scaled n).1 * 2 ^ ((scaled n).2 - 52) :=
        Nat.mul_le_mul_right _ low
      have power : 2 ^ 64 ≤ 2 ^ 52 * 2 ^ ((scaled n).2 - 52) := by
        rw [← Nat.pow_add]
        exact Nat.pow_le_pow_right (by decide) (by omega)
      omega

end Binary64
