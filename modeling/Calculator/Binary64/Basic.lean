/-!
# Doubles

A finite double is a whole number of units, a unit being `2 ^ -1074`, the smallest positive double: a significand of at
most 53 bits, shifted left by an exponent. `Magnitude` is such a number without its sign, held in the one form its value
has, and `Binary64` adds the sign, the two infinities and a NaN. Counting in units keeps all exact arithmetic in natural
numbers.
-/

namespace Calculator

/-- A finite double without its sign: `mant * 2 ^ exp` units. The significand uses all its 53 bits unless the exponent is
the smallest, so that two magnitudes of the same value are equal. -/
structure Magnitude where
  mant : Nat
  exp : Nat
  mant_lt : mant < 1 <<< 53
  exp_le : exp ≤ 2045
  full : exp = 0 ∨ 1 <<< 52 ≤ mant
deriving DecidableEq

namespace Magnitude

/-- A unit is `2 ^ -unitPlace`, the smallest positive double. -/
def unitPlace : Nat := 1074

/-- The number of units in the number one. -/
def unitsInOne : Nat := 1 <<< unitPlace

/-- The value of a magnitude, in units. -/
def units (x : Magnitude) : Nat := x.mant <<< x.exp

/-- A whole number of units that fits into the significand. -/
def ofUnits (n : Nat) (h : n < 1 <<< 53) : Magnitude := ⟨n, 0, h, Nat.zero_le _, Or.inl rfl⟩

/-- The magnitude of the two zeros. -/
def zero : Magnitude := ofUnits 0 (by decide)

@[simp] theorem units_zero : zero.units = 0 := rfl

end Magnitude

/-- A double. The payload and the sign of a NaN are not kept: nothing shows them. -/
inductive Binary64 where
  | nan
  | infinite (neg : Bool)
  | finite (neg : Bool) (mag : Magnitude)
deriving DecidableEq

namespace Binary64

/-- Neither an infinity nor a NaN. -/
def isFinite : Binary64 → Bool
  | finite _ _ => true
  | _ => false

/-- The value of the finite double with this sign and this magnitude, in units. -/
def signedUnits (neg : Bool) (mag : Magnitude) : Int :=
  if neg then -(mag.units : Int) else mag.units

end Binary64

end Calculator
