import Calculator.Token

/-!
# Guards

The checks on the text of an expression before it is read, in their order: a literal division by zero, the characters, the
balance of the parentheses, and an empty pair of parentheses in front. The first check that fails gives the error.
-/

namespace Calculator

namespace Guard

/-- A division sign directly followed by the digit zero occurs, whatever comes after it. -/
def hasZeroDivisor : List Char → Bool
  | [] => false
  | c :: cs => (c == '/' && cs.head? == some '0') || hasZeroDivisor cs

/-- What a character adds to the number of open parentheses. -/
def weight (c : Char) : Int :=
  if c = '(' then 1 else if c = ')' then -1 else 0

/-- With `depth` parentheses open before it, a text never closes one that is not open and leaves none open. -/
def closesFrom (depth : Int) : List Char → Bool
  | [] => depth == 0
  | c :: cs => 0 ≤ depth + weight c && closesFrom (depth + weight c) cs

/-- Refuses a text whose parentheses are not balanced, whatever its other characters are. -/
def checkParens (s : List Char) : Except EvalError Unit :=
  if closesFrom 0 s then .ok () else .error .unbalanced

/-- An empty pair of parentheses, alone or in front of an operator. -/
def opensEmpty : List Char → Bool
  | ['(', ')'] => true
  | '(' :: ')' :: c :: _ => isOperator c
  | _ => false

/-- All guards, on a text without blanks. -/
def validate (s : List Char) : Except EvalError Unit :=
  if hasZeroDivisor s then .error .zeroDivisor
  else if s.isEmpty || !s.all isExpressionChar then .error .malformed
  else if !closesFrom 0 s then .error .unbalanced
  else if opensEmpty s then .error .malformed
  else .ok ()

end Guard

end Calculator
