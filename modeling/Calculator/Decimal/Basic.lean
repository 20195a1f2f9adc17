/-!
# Decimals

Positive decimal numbers written by their significant digits: `0.d₁d₂…dₖ * 10 ^ point`. This is the form between the
search for the shortest digits of a double and the layouts that write them.
-/

namespace Calculator

/-- Ten to the power `n`. -/
def tenPow (n : Nat) : Nat := Nat.pow 10 n

/-- The digits of a decimal number without leading and trailing zeros, and the place of its point counted from before the
first digit. -/
structure Decimal where
  digits : List Char
  point : Int
deriving DecidableEq

namespace Decimal

/-- The digits of a number without its trailing zeros. -/
def significantDigits (c : Nat) : List Char :=
  ((Nat.toDigits 10 c).reverse.dropWhile (· == '0')).reverse

/-- The decimal `c * 10 ^ place`. -/
def ofScaled (c : Nat) (place : Int) : Decimal where
  digits := significantDigits c
  point := (Nat.toDigits 10 c).length + place

end Decimal

end Calculator
