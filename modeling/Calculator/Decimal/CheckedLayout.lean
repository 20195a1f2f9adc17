import Calculator.Decimal.Layout

/-!
# The canonical layout with its counts checked

The four cases of the canonical layout, one after the other. A negative number of zeros and a place outside of the digits have no
outcome here, so that it can be shown that they do not occur.
-/

namespace Calculator

namespace Decimal

/-- A number of zeros; none if the number is negative. -/
def zeros? (n : Int) : Option (List Char) :=
  if 0 ≤ n then some (List.replicate n.toNat '0') else none

/-- The characters before a place and those after it; none if the text does not reach to the place. -/
def divide? (w : List Char) (n : Int) : Option (List Char × List Char) :=
  if 0 ≤ n ∧ n ≤ w.length then some (w.splitAt n.toNat) else none

/-- The canonical layout: zeros after the digits, the point among the digits, zeros between the point and the digits, or a power
of ten after one digit and the others. -/
def canonical? (d : Decimal) : Option (List Char) :=
  if d.digits.length ≤ d.point ∧ d.point ≤ 21 then do
    let zeros ← zeros? (d.point - d.digits.length)
    return d.digits ++ zeros
  else if 0 < d.point ∧ d.point ≤ 21 then do
    let (whole, fraction) ← divide? d.digits d.point
    return whole ++ '.' :: fraction
  else if -6 < d.point ∧ d.point ≤ 0 then do
    let zeros ← zeros? (-d.point)
    return '0' :: '.' :: (zeros ++ d.digits)
  else do
    let (head, tail) ← divide? d.digits 1
    return head ++ (if tail.isEmpty then [] else '.' :: tail) ++ exponentText (d.point - 1)

end Decimal

end Calculator
