import Calculator.State

/-!
# Presses that fail

When the press of a key ends with an error, what is left of some keys without those that fail, and when the error on screen is
that of the expression.
-/

namespace Calculator

namespace State

/-- The error of a press. Only the sign of equality has one: that of the expression, if something is written. -/
def failure? (s : State) : Key → Option EvalError
  | .equals =>
    if s.expression.isEmpty then none
    else
      match evaluate s.evaluated with
      | .ok _ => none
      | .error e => some e
  | _ => none

/-- The keys without those that fail where they stand among all of them. -/
def withoutFailures (s : State) : List Key → List Key
  | [] => []
  | k :: ks =>
    let rest := (s.press k).withoutFailures ks
    if (s.failure? k).isSome then rest else k :: rest

/-- An error on screen is that of the expression: something is written, to evaluate it fails with this error, and nothing changes
then. -/
def ErrorIsCurrent (s : State) : Prop :=
  ∀ e, s.error = some e → s.expression ≠ [] ∧ s.failure? .equals = some e ∧ s.press .equals = s

end State

end Calculator
