import Calculator.Binary64.Arith
import Calculator.Decimal.Layout
import Calculator.Decimal.Shortest
import Calculator.Error

/-!
# Displayed numbers

A result is displayed with at most ten decimals, by the shortest digits that read back as the rounded double. An integer is
never rounded.
-/

namespace Calculator

namespace Binary64

/-- A minus sign before a negative number. -/
def signText (neg : Bool) : List Char := if neg then ['-'] else []

/-- The canonical text of a double: its shortest digits in the canonical layout. Zero has no sign. -/
def text : Binary64 → List Char
  | nan => ['N', 'a', 'N']
  | infinite neg => signText neg ++ ['I', 'n', 'f', 'i', 'n', 'i', 't', 'y']
  | finite neg a => if a.mant = 0 then ['0'] else signText neg ++ a.shortest.canonical

/-- The text of a double without an exponent, whatever its size. Zero keeps its sign. -/
def positionalText : Binary64 → List Char
  | nan => ['N', 'a', 'N']
  | infinite neg => signText neg ++ ['i', 'n', 'f']
  | finite neg a => signText neg ++ if a.mant = 0 then ['0'] else a.shortest.positional

/-- Ten decimals, as a factor. -/
def tenDecimals : Binary64 := ofNat 10000000000

/-- The number to display for a finite double: itself when it is an integer, else its value at ten decimals. The scaling,
the rounding of halves upwards and the division are operations on doubles. -/
def rounded (x : Binary64) : Binary64 :=
  if x.isInteger then x else ((x.mul tenDecimals).roundHalfUp).div tenDecimals

/-- The displayed text of a result. Only finite results have one. -/
def display (x : Binary64) : Except EvalError (List Char) :=
  if x.isFinite then .ok x.rounded.text else .error .notFinite

end Binary64

end Calculator
