import Calculator.Guard
import Calculator.Postfix
import Calculator.Text.Blank
import Calculator.Token.Lexer

/-!
# Evaluation of expressions

From the text that a user wrote to the text of its value: blanks are removed, the guards are applied, and the tokens are
brought into postfix order and evaluated.
-/

namespace Calculator

/-- The displayed value of an expression. -/
def evaluate (s : List Char) : Except EvalError (List Char) := do
  let clean := Text.stripBlanks s
  Guard.validate clean
  let tokens ← tokenize clean
  let program ← toPostfix tokens
  let value ← evalPostfix program
  value.display

end Calculator
