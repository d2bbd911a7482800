import Goqjs.Binary64
import Goqjs.RopeKeys

/-!
# Keys of a map

`map_hash_key` and `js_same_value_zero` on the values that `map_normalize_key` has passed. They keep
the laws of a map on all of these, `NaN` and the two zeros included. A rope beside a string of its
text does not, so ropes are no keys here, and big integers are left out.
-/

namespace Maps

open Binary64

/-- A symbol and an object are known by their address. -/
inductive Value where
  | undefined
  | null
  | bool (b : Bool)
  | int (i : Int32)
  | float64 (d : Double)
  | string (p : Ropes.Units)
  | symbol (p : UInt64)
  | object (p : UInt64)
  deriving DecidableEq

/-- A comparison of a double with zero. -/
def isZero (d : Double) : Bool := d.exponent == 0 && d.fraction == 0

def mapNormalizeKey : Value → Value
  | .float64 d => if isZero d then .int 0 else .float64 d
  | key => key

/-- A value that `map_normalize_key` leaves as it is. -/
structure Key where
  value : Value
  normal : mapNormalizeKey value = value
  deriving DecidableEq

/-- The two words of `JSFloat64Union`. -/
def words (d : Double) : UInt32 × UInt32 :=
  (.ofNat d.fraction,
    .ofNat ((if d.negative then 1 <<< 31 else 0) + d.exponent <<< 20 + d.fraction >>> 32))

/-- `map_hash_key` from `hash_float64` on. -/
def hashFloat64 (d : Double) : UInt32 := (((words d).1 ^^^ (words d).2) * 3163) ^^^ 8

/-- What a double is hashed as. -/
def normalizeNaN (d : Double) : Double := if isnan d then nan else d

/-- `map_hash_key`. The last operand is the tag. -/
def mapHashKey : Value → UInt32
  | .undefined => 0 ^^^ 3
  | .null => 0 ^^^ 2
  | .bool b => b.toUInt32 ^^^ 1
  | .int i => hashFloat64 (ofInt i.toInt)
  | .float64 d => hashFloat64 (normalizeNaN d)
  | .string p => Ropes.mapHashKey (.str p)
  | .symbol p => (p * 3163).toUInt32 ^^^ 0xFFFFFFF8
  | .object p => (p * 3163).toUInt32 ^^^ 0xFFFFFFFF

/-- `number_test` of `js_strict_eq2`. -/
def numberTest (d1 d2 : Double) : Bool :=
  if isnan d1 || isnan d2 then isnan d1 == isnan d2
  else d1 == d2 || (isZero d1 && isZero d2)

/-- `js_same_value_zero`. -/
def sameValueZero : Value → Value → Bool
  | .undefined, .undefined | .null, .null => true
  | .bool b1, .bool b2 => b1 == b2
  | .string p1, .string p2 => p1 == p2
  | .symbol p1, .symbol p2 => p1 == p2
  | .object p1, .object p2 => p1 == p2
  | .int i1, .int i2 => numberTest (ofInt i1.toInt) (ofInt i2.toInt)
  | .int i1, .float64 d2 => numberTest (ofInt i1.toInt) d2
  | .float64 d1, .int i2 => numberTest d1 (ofInt i2.toInt)
  | .float64 d1, .float64 d2 => numberTest d1 d2
  | _, _ => false

/-- The value with its number as a double, of which there is one `NaN`. -/
def Value.asDouble : Value → Value
  | .int i => .float64 (ofInt i.toInt)
  | .float64 d => .float64 (normalizeNaN d)
  | v => v

/-- No zero but the positive one. -/
def PlusZero (d : Double) : Prop := isZero d = true → d.negative = false

variable {d d1 d2 : Double}

theorem PlusZero.eq (h1 : PlusZero d1) (h2 : PlusZero d2) (zero1 : isZero d1 = true)
    (zero2 : isZero d2 = true) : d1 = d2 := by
  have n1 := h1 zero1
  have n2 := h2 zero2
  obtain ⟨negative1, exponent1, fraction1, _, _⟩ := d1
  obtain ⟨negative2, exponent2, fraction2, _, _⟩ := d2
  simp only [isZero, Bool.and_eq_true, beq_iff_eq] at zero1 zero2
  simp only at n1 n2
  simp only [n1, n2, zero1, zero2]

theorem numberTest_iff (h1 : PlusZero d1) (h2 : PlusZero d2) :
    numberTest d1 d2 = true ↔ normalizeNaN d1 = normalizeNaN d2 := by
  rw [numberTest, normalizeNaN, normalizeNaN]
  cases nan1 : isnan d1 with
  | true =>
    cases nan2 : isnan d2 with
    | true => simp
    | false =>
      have ne : nan ≠ d2 := by
        rintro rfl
        cases isnan_nan.symm.trans nan2
      simpa using ne
  | false =>
    cases nan2 : isnan d2 with
    | true =>
      have ne : d1 ≠ nan := by
        rintro rfl
        cases isnan_nan.symm.trans nan1
      simpa using ne
    | false =>
      simp only [Bool.or_self, Bool.false_eq_true, if_false, Bool.or_eq_true, beq_iff_eq,
        Bool.and_eq_true]
      exact ⟨fun h => h.elim id fun zero => h1.eq h2 zero.1 zero.2, .inl⟩

theorem exponent_ofInt_pos {i : Int} (nonzero : i ≠ 0) : 0 < (ofInt i).exponent := by
  rw [ofInt, ofNat, if_neg (Int.natAbs_ne_zero.mpr nonzero)]
  split_ifs <;> simp

theorem plusZero_ofInt (i : Int) : PlusZero (ofInt i) := by
  intro zero
  by_cases nonzero : i = 0
  · rw [nonzero]
    rfl
  · have pos := exponent_ofInt_pos nonzero
    simp only [isZero, Bool.and_eq_true, beq_iff_eq] at zero
    omega

theorem normalizeNaN_ofInt (i : Int32) : normalizeNaN (ofInt i.toInt) = ofInt i.toInt := by
  have low := i.le_toInt
  have high := i.toInt_lt
  have small := exponent_ofInt_le (i := i.toInt) (by omega)
  have number : ¬isnan (ofInt i.toInt) = true := by
    simp only [isnan, Bool.and_eq_true, beq_iff_eq]
    omega
  exact if_neg number

theorem plusZero_of_normal (normal : mapNormalizeKey (.float64 d) = .float64 d) : PlusZero d := by
  intro zero
  rw [mapNormalizeKey, if_pos zero] at normal
  cases normal

theorem Key.sameValueZero_iff (a b : Key) :
    sameValueZero a.value b.value = true ↔ a.value.asDouble = b.value.asDouble := by
  obtain ⟨a, normal_a⟩ := a
  obtain ⟨b, normal_b⟩ := b
  have numbers : ∀ {d1 d2 : Double}, PlusZero d1 → PlusZero d2 → (numberTest d1 d2 = true ↔
      Value.float64 (normalizeNaN d1) = .float64 (normalizeNaN d2)) := fun h1 h2 =>
    (numberTest_iff h1 h2).trans (Value.float64.injEq ..).symm.to_iff
  cases a <;> cases b <;>
    simp only [sameValueZero, Value.asDouble, reduceCtorEq, Bool.false_eq_true, beq_iff_eq,
      Value.bool.injEq, Value.string.injEq, Value.symbol.injEq, Value.object.injEq]
  case int.int i j =>
    rw [numbers (plusZero_ofInt _) (plusZero_ofInt _), normalizeNaN_ofInt, normalizeNaN_ofInt]
  case int.float64 i d =>
    rw [numbers (plusZero_ofInt _) (plusZero_of_normal normal_b), normalizeNaN_ofInt]
  case float64.int d i =>
    rw [numbers (plusZero_of_normal normal_a) (plusZero_ofInt _), normalizeNaN_ofInt]
  case float64.float64 d d' =>
    exact numbers (plusZero_of_normal normal_a) (plusZero_of_normal normal_b)

theorem mapHashKey_asDouble (v : Value) : mapHashKey v.asDouble = mapHashKey v := by
  cases v with
  | int i =>
    rw [Value.asDouble, mapHashKey, mapHashKey, normalizeNaN_ofInt]
  | float64 d =>
    have twice : normalizeNaN (normalizeNaN d) = normalizeNaN d := by
      rw [normalizeNaN, normalizeNaN]
      split_ifs with first second
      · rfl
      · rfl
      · rfl
    rw [Value.asDouble, mapHashKey, mapHashKey, twice]
  | _ => rfl

/-- What `map_hash_key` and `js_same_value_zero` make of these keys. -/
def scriptKeys : Keys Key where
  hash a := mapHashKey a.value
  same a b := sameValueZero a.value b.value
  refl a := (a.sameValueZero_iff a).mpr rfl
  symm {a b} same := (b.sameValueZero_iff a).mpr ((a.sameValueZero_iff b).mp same).symm
  trans {a b c} same same' := (a.sameValueZero_iff c).mpr
    (((a.sameValueZero_iff b).mp same).trans ((b.sameValueZero_iff c).mp same'))
  hash_eq {a b} same := by
    rw [← mapHashKey_asDouble, (a.sameValueZero_iff b).mp same, mapHashKey_asDouble]

end Maps
