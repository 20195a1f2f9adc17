/-!
# Errors of an evaluation

The reasons for which an expression has no displayed value, and the message shown for each.
-/

namespace Calculator

/-- Why an expression is refused. -/
inductive EvalError where
  /-- A division sign is followed by the digit zero. -/
  | zeroDivisor
  /-- A parenthesis is closed that was not opened, or opened and not closed. -/
  | unbalanced
  /-- The characters do not form an arithmetic expression. -/
  | malformed
  /-- The value is an infinity or a NaN. -/
  | notFinite
  /-- A stack program does not leave exactly one number. -/
  | stackFault
deriving DecidableEq

namespace EvalError

/-- The text shown to the user. -/
def message : EvalError → String
  | zeroDivisor => "Division by zero is not allowed"
  | unbalanced => "Mismatched parentheses detected"
  | malformed => "Invalid mathematical expression"
  | notFinite => "Invalid result"
  | stackFault => "Calculation error"

end EvalError

end Calculator
