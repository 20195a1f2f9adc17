import Calculator.Binary64.Round

/-!
# Arithmetic on doubles

The four operations, the floor and the order of IEEE-754 doubles. On two finite doubles an operation is its exact result,
rounded once; the other cases are those of the standard: a NaN is kept, opposite infinities, a zero times an infinity and a
zero or an infinity divided by itself give a NaN, and a finite number divided by zero gives an infinity.
-/

namespace Calculator

namespace Binary64

/-- The zero with this sign. -/
def zero (neg : Bool) : Binary64 := finite neg Magnitude.zero

/-- One half. -/
def half : Binary64 := ofRatio false Magnitude.unitsInOne 2

/-- The same number with the opposite sign. -/
def negate : Binary64 → Binary64
  | nan => nan
  | infinite s => infinite !s
  | finite s a => finite (!s) a

/-- The rounded sum. A sum of two finite doubles is a whole number of units, so only its length is rounded. An exact zero is
positive, unless both summands are negative zeros. -/
def add : Binary64 → Binary64 → Binary64
  | nan, _ => nan
  | _, nan => nan
  | infinite s, infinite t => if s = t then infinite s else nan
  | infinite s, finite _ _ => infinite s
  | finite _ _, infinite t => infinite t
  | finite s a, finite t b =>
    let u := signedUnits s a + signedUnits t b
    if u = 0 then zero (s && t) else ofRatio (u < 0) u.natAbs 1

/-- The rounded difference: the sum with the opposite of the second number. -/
def sub (x y : Binary64) : Binary64 := add x y.negate

/-- The rounded product, with the sign rule of products also for zeros and infinities. -/
def mul : Binary64 → Binary64 → Binary64
  | nan, _ => nan
  | _, nan => nan
  | infinite s, infinite t => infinite (s ^^ t)
  | infinite s, finite t b => if b.mant = 0 then nan else infinite (s ^^ t)
  | finite s a, infinite t => if a.mant = 0 then nan else infinite (s ^^ t)
  | finite s a, finite t b => ofRatio (s ^^ t) (a.units * b.units) Magnitude.unitsInOne

/-- The rounded quotient, with the sign rule of products. -/
def div : Binary64 → Binary64 → Binary64
  | nan, _ => nan
  | _, nan => nan
  | infinite _, infinite _ => nan
  | infinite s, finite t _ => infinite (s ^^ t)
  | finite s _, infinite t => zero (s ^^ t)
  | finite s a, finite t b =>
    if b.mant = 0 then
      if a.mant = 0 then nan else infinite (s ^^ t)
    else ofRatio (s ^^ t) (a.units * Magnitude.unitsInOne) b.units

/-- At most: false when one of the two is a NaN, and true between the two zeros. -/
def le : Binary64 → Binary64 → Bool
  | nan, _ => false
  | _, nan => false
  | infinite s, infinite t => s || !t
  | infinite s, finite _ _ => s
  | finite _ _, infinite t => !t
  | finite s a, finite t b => signedUnits s a ≤ signedUnits t b

/-- The greatest integer that is not greater. It is again a double, and it keeps the sign, so that a negative zero stays
one; for a negative number the units are rounded away from zero. -/
def floor : Binary64 → Binary64
  | nan => nan
  | infinite s => infinite s
  | finite s a =>
    let whole := if s then (a.units + (Magnitude.unitsInOne - 1)) / Magnitude.unitsInOne
      else a.units / Magnitude.unitsInOne
    ofRatio s (whole * Magnitude.unitsInOne) 1

/-- A finite double without a fractional part. -/
def isInteger : Binary64 → Bool
  | finite _ a => a.units % Magnitude.unitsInOne = 0
  | _ => false

/-- The integer nearest to a double, a half going up: `2.5` gives `3`, `-2.5` gives `-2`. A distance to the floor of less than a
half is exact, so nothing below a half is taken for one. -/
def roundHalfUp (x : Binary64) : Binary64 :=
  if half.le (x.sub x.floor) then x.floor.add (ofNat 1) else x.floor

end Binary64

end Calculator
