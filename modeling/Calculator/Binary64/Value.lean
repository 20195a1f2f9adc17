import Mathlib
import Calculator.Binary64.Arith

/-!
# The numbers that doubles stand for

A finite double stands for a rational number: its units, divided by their number in one.
-/

namespace Calculator

namespace Magnitude

theorem unitsInOne_eq : unitsInOne = 2 ^ unitPlace := Nat.one_shiftLeft unitPlace

theorem units_eq (x : Magnitude) : x.units = x.mant * 2 ^ x.exp := by
  unfold units
  rw [Nat.shiftLeft_eq]

/-- The number a magnitude stands for. -/
def toRat (x : Magnitude) : ℚ := x.units / unitsInOne

@[simp] theorem toRat_zero : zero.toRat = 0 := by
  unfold toRat
  rw [units_zero, Nat.cast_zero, zero_div]

theorem toRat_nonneg (x : Magnitude) : 0 ≤ x.toRat :=
  div_nonneg (Nat.cast_nonneg _) (Nat.cast_nonneg _)

end Magnitude

namespace Binary64

/-- The number a finite double stands for. An infinity or a NaN stands for none, and counts as zero. -/
def toRat : Binary64 → ℚ
  | finite neg a => if neg then -a.toRat else a.toRat
  | _ => 0

/-- The value of a finite double, by its units with their sign. -/
theorem toRat_finite (neg : Bool) (a : Magnitude) :
    (finite neg a).toRat = signedUnits neg a / Magnitude.unitsInOne := by
  cases neg with
  | false => simp [toRat, signedUnits, Magnitude.toRat]
  | true => simp [toRat, signedUnits, Magnitude.toRat, neg_div]

/-- The double nearest to a number, a tie going to the even significand. -/
def nearest (q : ℚ) : Binary64 := ofRatio (q < 0) (q.num.natAbs * Magnitude.unitsInOne) q.den

/-- The least number that is rounded to an infinity: half a step above the largest finite double. -/
def overflowBound : ℚ := 2 ^ 1024 - 2 ^ 970

/-- The double is what rounding a number to the nearest gives, and has its sign in any case. From the bound on it is an
infinity. Below, it is a finite double such that no other one is nearer, and it has an even significand if one of another
value is as near. -/
def IsNearest (x : Binary64) (q : ℚ) : Prop :=
  match x with
  | nan => False
  | infinite neg => overflowBound ≤ |q| ∧ neg = decide (q < 0)
  | finite neg a => |q| < overflowBound ∧ neg = decide (q < 0) ∧
      ∀ t b, |(finite neg a).toRat - q| ≤ |(finite t b).toRat - q| ∧
        (|(finite t b).toRat - q| = |(finite neg a).toRat - q| → (finite t b).toRat ≠ (finite neg a).toRat → a.mant % 2 = 0)

theorem toRat_negate (x : Binary64) : x.negate.toRat = -x.toRat := by
  cases x with
  | nan => simp [negate, toRat]
  | infinite neg => simp [negate, toRat]
  | finite neg a => cases neg <;> simp [negate, toRat]

end Binary64

end Calculator
