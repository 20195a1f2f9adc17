import Calculator.Display

/-!
# Tokens

The words of an expression: numbers, the four operators and the two parentheses, and their texts.
-/

namespace Calculator

/-- The binary operators. -/
inductive BinOp where
  | add
  | sub
  | mul
  | div
deriving DecidableEq

namespace BinOp

/-- How tightly an operator binds. -/
def precedence : BinOp → Nat
  | add => 1
  | sub => 1
  | mul => 2
  | div => 2

/-- The operation on doubles. -/
def apply : BinOp → Binary64 → Binary64 → Binary64
  | add => Binary64.add
  | sub => Binary64.sub
  | mul => Binary64.mul
  | div => Binary64.div

/-- The character of an operator. -/
def symbol : BinOp → Char
  | add => '+'
  | sub => '-'
  | mul => '*'
  | div => '/'

/-- The operator written by a character. -/
def ofChar? (c : Char) : Option BinOp :=
  if c = '+' then some add
  else if c = '-' then some sub
  else if c = '*' then some mul
  else if c = '/' then some div
  else none

end BinOp

/-- The characters of the four operators. -/
def isOperator (c : Char) : Bool := (BinOp.ofChar? c).isSome

/-- The seventeen characters of expressions. -/
def isExpressionChar (c : Char) : Bool := c.isDigit || isOperator c || c == '(' || c == ')' || c == '.'

/-- A word of an expression. A literal is kept by its value. -/
inductive Token where
  | number (x : Binary64)
  | op (o : BinOp)
  | lparen
  | rparen
deriving DecidableEq

namespace Token

/-- The token that a single character stands for, when it is not part of a literal. -/
def ofChar? (c : Char) : Option Token :=
  if c = '(' then some lparen
  else if c = ')' then some rparen
  else (BinOp.ofChar? c).map op

/-- The text of a token. Numbers are written without an exponent, so that they are literals again. -/
def text : Token → List Char
  | number x => x.positionalText
  | op o => [o.symbol]
  | lparen => ['(']
  | rparen => [')']

/-- The texts of the tokens, one space between two of them. -/
def spacedText (ts : List Token) : List Char := List.intercalate [' '] (ts.map text)

end Token

end Calculator
