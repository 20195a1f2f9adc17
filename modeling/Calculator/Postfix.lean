import Calculator.Token

/-!
# Postfix programs

An expression is turned into postfix order with one stack of pending operators and open parentheses, and a postfix program
is evaluated with one stack of numbers. Neither recurses on the depth of the expression.
-/

namespace Calculator

/-- What waits for its right end: an operator for its right operand, or an open parenthesis. -/
inductive Pending where
  | op (o : BinOp)
  | paren
deriving DecidableEq

/-- A conversion under way: the output with its last token first, the pending items with the last one first, and whether an
operand has to come next. -/
structure Yard where
  output : List Token
  pending : List Pending
  expectOperand : Bool
deriving DecidableEq

namespace Yard

/-- Nothing read: an operand has to come. -/
def start : Yard := ⟨[], [], true⟩

/-- Moves the pending operators to the output, as far as they bind at least as tightly as `o`: operators of one precedence
group to the left. -/
def release (o : BinOp) : List Token → List Pending → List Token × List Pending
  | out, .op p :: ps => if o.precedence ≤ p.precedence then release o (.op p :: out) ps else (out, .op p :: ps)
  | out, ps => (out, ps)

/-- Moves the pending operators to the output up to the last open parenthesis, which is dropped; none if there is no open
parenthesis. -/
def close? : List Token → List Pending → Option (List Token × List Pending)
  | _, [] => none
  | out, .paren :: ps => some (out, ps)
  | out, .op o :: ps => close? (.op o :: out) ps

/-- Moves all pending operators to the output; none if a parenthesis is still open. -/
def drain? : List Token → List Pending → Option (List Token)
  | out, [] => some out
  | _, .paren :: _ => none
  | out, .op o :: ps => drain? (.op o :: out) ps

/-- Reads one token. An operand or an open parenthesis has to come where an operand is expected, an operator or a closing
parenthesis where none is. -/
def step (y : Yard) : Token → Except EvalError Yard
  | .number x =>
    if y.expectOperand then .ok ⟨.number x :: y.output, y.pending, false⟩ else .error .malformed
  | .lparen =>
    if y.expectOperand then .ok ⟨y.output, .paren :: y.pending, true⟩ else .error .malformed
  | .rparen =>
    if y.expectOperand then .error .malformed
    else
      match close? y.output y.pending with
      | some (out, ps) => .ok ⟨out, ps, false⟩
      | none => .error .unbalanced
  | .op o =>
    if y.expectOperand then .error .malformed
    else
      let (out, ps) := release o y.output y.pending
      .ok ⟨out, .op o :: ps, true⟩

/-- Reads the tokens one after the other. -/
def run : List Token → Yard → Except EvalError Yard
  | [], y => .ok y
  | t :: ts, y => do
    let y ← y.step t
    run ts y

/-- Reading two lists of tokens one after the other. -/
theorem run_append (ts us : List Token) (y : Yard) : run (ts ++ us) y = run ts y >>= run us := by
  induction ts generalizing y with
  | nil => rfl
  | cons t ts ih =>
    simp only [List.cons_append, run]
    cases y.step t with
    | error e => rfl
    | ok y' => exact ih y'

/-- The program, once all tokens are read. An expression does not end where an operand is expected. -/
def finish (y : Yard) : Except EvalError (List Token) :=
  if y.expectOperand then .error .malformed
  else
    match drain? y.output y.pending with
    | some out => .ok out.reverse
    | none => .error .unbalanced

end Yard

/-- The postfix order of an expression. -/
def toPostfix (ts : List Token) : Except EvalError (List Token) := do
  let y ← Yard.run ts .start
  y.finish

/-- The stack after a program: a number is pushed, an operator takes the two upper numbers, the upper one as its right
operand, and pushes its result. -/
def runPostfix : List Token → List Binary64 → Except EvalError (List Binary64)
  | [], st => .ok st
  | .number x :: ts, st => runPostfix ts (x :: st)
  | .op o :: ts, b :: a :: st => runPostfix ts (o.apply a b :: st)
  | _ :: _, _ => .error .stackFault

/-- The value of a postfix program, which leaves exactly one number on the stack. -/
def evalPostfix (ts : List Token) : Except EvalError Binary64 := do
  match ← runPostfix ts [] with
  | [v] => return v
  | _ => .error .stackFault

end Calculator
