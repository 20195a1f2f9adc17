import Calculator.Binary64.Round
import Calculator.Decimal.Basic

/-!
# Shortest digits of a double

The fewest significant digits that read back as the same double and, among those of that length, the nearest to it. With
one digit, then two, and so on, the number has two neighbours on the decimal grid of that many digits; if any point of the
grid reads back, one of the two does. Seventeen digits always suffice.
-/

namespace Calculator

namespace Magnitude

/-- The least `n` for which a positive magnitude is below `10 ^ n`. The smallest magnitude is above `10 ^ -324`, so the
whole part of its product with `10 ^ 324` has as many digits as the product needs. -/
def decimalExponent (x : Magnitude) : Int :=
  (Nat.toDigits 10 (x.units * tenPow 324 / unitsInOne)).length - 324

/-- The magnitude nearest to `c * 10 ^ place`. -/
def ofScaled? (c : Nat) (place : Int) : Option Magnitude :=
  ofRatio? (c * tenPow place.toNat * unitsInOne) (tenPow (-place).toNat)

/-- Whether `c * 10 ^ place` is read as this magnitude. -/
def readsBack (x : Magnitude) (place : Int) (c : Nat) : Bool := ofScaled? c place = some x

/-- The two multiples of `10 ^ place` around a magnitude, the nearer one first. A magnitude in the middle counts as nearer
to the upper one. -/
def neighbours (x : Magnitude) (place : Int) : Nat × Nat :=
  let n := x.units * tenPow (-place).toNat
  let d := unitsInOne * tenPow place.toNat
  let below := n / d
  if 2 * (n % d) < d then (below, below + 1) else (below + 1, below)

/-- The neighbour that reads back, the nearer one when both do. -/
def readBackOn? (x : Magnitude) (place : Int) : Option Nat :=
  let (near, far) := x.neighbours place
  [near, far].find? (x.readsBack place)

/-- The decimal of the neighbour that reads back. -/
def decimalOn? (x : Magnitude) (place : Int) : Option Decimal :=
  (x.readBackOn? place).map fun c => Decimal.ofScaled c place

/-- The shortest decimal that reads back as this magnitude. -/
def shortest (x : Magnitude) : Decimal :=
  let n := x.decimalExponent
  let tries := (List.range 16).map fun i => n - (i + 1 : Nat)
  (tries.findSome? x.decimalOn?).getD (Decimal.ofScaled (x.neighbours (n - 17)).1 (n - 17))

end Magnitude

end Calculator
