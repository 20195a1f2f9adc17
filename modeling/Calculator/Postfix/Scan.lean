import Calculator.Token

/-!
# The order of tokens without a stack

Whether a list of tokens is an expression, and which error it is otherwise, can be told from left to right with two data:
whether an operand has to come next, and how many parentheses are open.
-/

namespace Calculator

/-- What is known after some tokens. -/
structure Scan where
  expectOperand : Bool
  depth : Nat
deriving DecidableEq

namespace Scan

/-- Before the first token. -/
def start : Scan := ⟨true, 0⟩

/-- One token: operands and open parentheses come where an operand is expected, all else where none is. -/
def step (s : Scan) : Token → Except EvalError Scan
  | .number _ => if s.expectOperand then .ok { s with expectOperand := false } else .error .malformed
  | .lparen => if s.expectOperand then .ok { s with depth := s.depth + 1 } else .error .malformed
  | .rparen =>
    if s.expectOperand then .error .malformed
    else if s.depth = 0 then .error .unbalanced
    else .ok { s with depth := s.depth - 1 }
  | .op _ => if s.expectOperand then .error .malformed else .ok { s with expectOperand := true }

/-- All tokens, up to the first one that may not come. -/
def run : List Token → Scan → Except EvalError Scan
  | [], s => .ok s
  | t :: ts, s => do
    let s ← s.step t
    run ts s

/-- The outcome of the whole list. -/
def outcome (ts : List Token) : Except EvalError Unit := do
  let s ← run ts start
  if s.expectOperand then .error .malformed
  else if s.depth = 0 then .ok () else .error .unbalanced

end Scan

end Calculator
