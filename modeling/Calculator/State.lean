import Calculator.Evaluate
import Calculator.Key

/-!
# The state of the calculator

The expression being written, the last result, the last ten calculations and the error on screen, and what each key does
to them. A minus sign where an operand has to come is written as a subtraction from zero, since expressions have only binary
operators.
-/

namespace Calculator

/-- A calculation that succeeded: an expression and its displayed value. -/
structure Entry where
  expression : List Char
  value : List Char
deriving DecidableEq

/-- The line of a calculation in the history. -/
def Entry.text (e : Entry) : List Char := e.expression ++ [' ', '=', ' '] ++ e.value

/-- What the calculator holds between two keys. A calculation and an error are kept by their parts and their kind; the texts on
screen are `Entry.text` and `EvalError.message`, and no key reads them. -/
structure State where
  expression : List Char
  result : List Char
  /-- The calculations, the newest first. -/
  history : List Entry
  error : Option EvalError
deriving DecidableEq

namespace State

/-- The number of calculations that are kept. -/
def historyLimit : Nat := 10

/-- The result before any calculation. -/
def noResult : List Char := ['0']

/-- A calculator that was just switched on. -/
def initial : State := ⟨[], noResult, [], none⟩

/-! ## Writing an expression -/

/-- The text ends with an operator. -/
def endsWithOperator (s : List Char) : Bool := s.getLast?.any isOperator

/-- The characters that end a number: the operators and the parentheses. -/
def isDelimiter (c : Char) : Bool := isOperator c || c == '(' || c == ')'

/-- The last number of a text, as far as it is written. -/
def lastNumber (s : List Char) : List Char := (s.reverse.takeWhile (!isDelimiter ·)).reverse

/-- Where a minus sign is that of an operand: in front, after an operator and after an open parenthesis. -/
def expectsOperand (s : List Char) : Bool := s.isEmpty || endsWithOperator s || s.getLast? == some '('

/-- An expression with one more character, as far as it may follow. A number takes only one point; a minus sign in front of
an operand becomes a subtraction from zero; any other operator is dropped in front, and replaces one written before it. -/
def extend (s : List Char) (c : Char) : List Char :=
  if c = '.' then
    if '.' ∈ lastNumber s then s else s ++ ['.']
  else if isOperator c then
    if c = '-' && expectsOperand s then s ++ ['0', '-']
    else if s.isEmpty then s
    else if endsWithOperator s then s.dropLast ++ [c]
    else s ++ [c]
  else s ++ [c]

/-- Adds a character to the expression and takes the error off the screen. -/
def add (s : State) (c : Char) : State := { s with expression := extend s.expression c, error := none }

@[simp] theorem add_expression (s : State) (c : Char) : (s.add c).expression = extend s.expression c := rfl

@[simp] theorem add_result (s : State) (c : Char) : (s.add c).result = s.result := rfl

@[simp] theorem add_history (s : State) (c : Char) : (s.add c).history = s.history := rfl

@[simp] theorem add_error (s : State) (c : Char) : (s.add c).error = none := rfl

/-- Adds the characters of a text, one by one. -/
def addAll (s : State) (w : List Char) : State := w.foldl add s

/-- The expression depends on the characters alone. -/
theorem addAll_expression (s : State) (w : List Char) : (s.addAll w).expression = w.foldl extend s.expression := by
  unfold addAll
  induction w generalizing s with
  | nil => rfl
  | cons c w ih => exact ih (s.add c)

/-- Typing does not change the history. -/
theorem addAll_history (s : State) (w : List Char) : (s.addAll w).history = s.history := by
  unfold addAll
  induction w generalizing s with
  | nil => rfl
  | cons c w ih => exact ih (s.add c)

/-! ## The other keys -/

/-- Starts anew, but for the history. -/
def clear (s : State) : State := { s with expression := [], result := noResult, error := none }

/-- Removes the last character of the expression. -/
def backspace (s : State) : State := { s with expression := s.expression.dropLast }

/-- The expression that is evaluated: an operator at the end is left out. -/
def evaluated (s : State) : List Char :=
  if endsWithOperator s.expression then s.expression.dropLast else s.expression

/-- Evaluates the expression, if there is one. A value becomes the result and the newest line of the history and makes room
for the next expression; an error is shown, and all else is kept. -/
def equals (s : State) : State :=
  if s.expression.isEmpty then s
  else
    match evaluate s.evaluated with
    | .ok v => ⟨[], v, (⟨s.evaluated, v⟩ :: s.history).take historyLimit, none⟩
    | .error e => { s with error := some e }

@[simp] theorem clear_expression (s : State) : s.clear.expression = [] := rfl

@[simp] theorem clear_history (s : State) : s.clear.history = s.history := rfl

@[simp] theorem backspace_expression (s : State) : s.backspace.expression = s.expression.dropLast := rfl

@[simp] theorem backspace_history (s : State) : s.backspace.history = s.history := rfl

/-- Without an expression there is nothing to evaluate. -/
theorem equals_of_isEmpty {s : State} (h : s.expression.isEmpty = true) : s.equals = s := by
  unfold equals
  rw [if_pos h]

/-- A successful evaluation. -/
theorem equals_of_ok {s : State} {v : List Char} (h : s.expression.isEmpty = false) (hv : evaluate s.evaluated = .ok v) :
    s.equals = ⟨[], v, (⟨s.evaluated, v⟩ :: s.history).take historyLimit, none⟩ := by
  unfold equals
  rw [h, hv]
  rfl

/-- A failed evaluation changes nothing but the error on screen. -/
theorem equals_of_error {s : State} {e : EvalError} (h : s.expression.isEmpty = false)
    (he : evaluate s.evaluated = .error e) : s.equals = { s with error := some e } := by
  unfold equals
  rw [h, he]
  rfl

/-- What a key does. -/
def press (s : State) : Key → State
  | .symbol c => s.add c
  | .clear => s.clear
  | .backspace => s.backspace
  | .equals => s.equals

/-- The state after some keys. -/
def pressAll (s : State) (ks : List Key) : State := ks.foldl press s

/-- The keys of two sequences, one after the other. -/
theorem pressAll_append (s : State) (ks js : List Key) : s.pressAll (ks ++ js) = (s.pressAll ks).pressAll js :=
  List.foldl_append

/-- The state after an expression was put in place of the one being written. -/
def write (s : State) (expression : List Char) : State := { s with expression }

/-- The expression on screen: none while an error is shown, and a zero when nothing is written. -/
def shownExpression (s : State) : List Char :=
  if s.error.isSome then [] else if s.expression.isEmpty then ['0'] else s.expression

end State

end Calculator
