import Calculator.Binary64.Round
import Calculator.Decimal.Basic

/-!
# Decimal literals

A literal is a run of digits with at most one point among them and at least one digit; the point may come first or last.
Its value is the double nearest to the decimal number it denotes, whatever the number of its digits.
-/

namespace Calculator

namespace Literal

/-- A character of a literal: a digit or the point. -/
def isNumeral (c : Char) : Bool := c.isDigit || c == '.'

/-- Digits and points, at least one digit and at most one point. -/
def isLiteral (cs : List Char) : Bool :=
  cs.all isNumeral && cs.any Char.isDigit && cs.count '.' ≤ 1

/-- The digits before the point, all of them when there is none. -/
def whole (cs : List Char) : List Char := cs.takeWhile (· != '.')

/-- The digits after the point. -/
def fraction (cs : List Char) : List Char := (cs.dropWhile (· != '.')).drop 1

/-- The number written by the digits, the point left out. -/
def coefficient (cs : List Char) : Nat := Nat.ofDigitChars 10 (whole cs ++ fraction cs) 0

/-- The double nearest to the decimal number that a literal denotes: its digits as a whole number, divided by ten for each
digit after the point. -/
def value (cs : List Char) : Binary64 :=
  Binary64.ofRatio false (coefficient cs * Magnitude.unitsInOne) (tenPow (fraction cs).length)

end Literal

end Calculator
