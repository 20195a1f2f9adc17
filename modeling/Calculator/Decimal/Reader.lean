import Mathlib
import Calculator.Decimal.Literal
import Calculator.Binary64.Value

/-!
# Reading decimal texts

The number that a decimal text denotes, by the places of its digits: an optional minus sign, digits with at most one point
among them, and an optional power of ten. Which of the digits are significant, and how many of them a number needs.
-/

namespace Calculator

namespace Literal

/-- The number of a digit. -/
def digit (c : Char) : ℚ := (c.toNat - '0'.toNat : Nat)

/-- The number written by digits before the point: each digit counts ten times what the next one does. -/
def wholeNumber : List Char → ℚ
  | [] => 0
  | c :: cs => digit c * 10 ^ cs.length + wholeNumber cs

/-- The number written by digits after the point: each digit counts a tenth of what the one before does. -/
def fractionNumber : List Char → ℚ
  | [] => 0
  | c :: cs => (digit c + fractionNumber cs) / 10

/-- The number that a literal denotes. -/
def toRat (cs : List Char) : ℚ := wholeNumber (whole cs) + fractionNumber (fraction cs)

end Literal

/-- The number that a decimal stands for: its digits after the point, moved to its place. -/
def Decimal.toRat (d : Decimal) : ℚ := Literal.fractionNumber d.digits * 10 ^ d.point

/-- The number of a text of digits with a sign before it. -/
def readExponent? : List Char → Option ℤ
  | c :: ds =>
    if ds.isEmpty || !ds.all Char.isDigit then none
    else if c = '+' then some (Nat.ofDigitChars 10 ds 0)
    else if c = '-' then some (-(Nat.ofDigitChars 10 ds 0 : ℤ))
    else none
  | [] => none

/-- The number of a text without a minus sign in front. -/
def readUnsigned? (cs : List Char) : Option ℚ :=
  let mantissa := cs.takeWhile (· != 'e')
  if Literal.isLiteral mantissa then
    match cs.dropWhile (· != 'e') with
    | [] => some (Literal.toRat mantissa)
    | _ :: rest => (readExponent? rest).map fun e => Literal.toRat mantissa * 10 ^ e
  else none

/-- The number that a decimal text denotes. -/
def readDecimal? : List Char → Option ℚ
  | '-' :: cs => (readUnsigned? cs).map (- ·)
  | cs => readUnsigned? cs

/-- The significant digits of a decimal text: those in front of the power of ten, without the zeros at both ends. -/
def Text.significant (t : List Char) : List Char :=
  (((t.takeWhile (· != 'e')).filter Char.isDigit).dropWhile (· == '0')).rdropWhile (· == '0')

/-- A decimal number of at most `k` significant digits. -/
def HasDigits (k : ℕ) (q : ℚ) : Prop := ∃ c place : ℤ, q = c * 10 ^ place ∧ |c| < 10 ^ k

end Calculator
