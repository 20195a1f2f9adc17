import Calculator.State

/-!
# The log of a run

Everything that can be done to a calculator, and what a history without a limit would note of it: the calculations that
succeeded, and when the calculator was cleared. The log looks at the expression before each action and at its value, and not
at what the calculator keeps of them.
-/

namespace Calculator

/-- What is done to a calculator: a key is pressed, or an expression is put in place of the one being written. -/
inductive Action where
  | key (k : Key)
  | write (expression : List Char)
deriving DecidableEq

/-- What is noted of an action. -/
inductive Mark where
  | success (e : Entry)
  | cleared
deriving DecidableEq

namespace Mark

/-- The calculation, if the mark is one. -/
def entry? : Mark → Option Entry
  | success e => some e
  | cleared => none

/-- The result that is due after some marks, the newest first: the value of the newest calculation, unless the calculator was
cleared after it or there is none. -/
def result : List Mark → List Char
  | success e :: _ => e.value
  | _ => ['0']

end Mark

namespace State

/-- The state after an action. -/
def act (s : State) : Action → State
  | .key k => s.press k
  | .write e => s.write e

/-- The state after some actions. -/
def run (s : State) (as : List Action) : State := as.foldl act s

/-- What is noted of an action: the expression and its value when the sign of equality is pressed and it has one, and that
the calculator was cleared. -/
def mark? (s : State) : Action → Option Mark
  | .key .equals =>
    match evaluate s.evaluated with
    | .ok v => some (.success ⟨s.evaluated, v⟩)
    | .error _ => none
  | .key .clear => some .cleared
  | _ => none

/-- The marks of some actions, the newest first. -/
def log (s : State) : List Action → List Mark
  | [] => []
  | a :: as => (s.act a).log as ++ (s.mark? a).toList

end State

end Calculator
