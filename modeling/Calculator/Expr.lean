import Calculator.Postfix

/-!
# Expressions as trees

The tree of an expression, its value computed from the leaves up, and its postfix writing. A parenthesis is a node of its
own: it changes neither the value nor the writing, and with it a tree tells the expression it was read from.
-/

namespace Calculator

/-- An expression whose numbers are of the type `ν`. -/
inductive Expr (ν : Type) where
  | number (x : ν)
  | paren (e : Expr ν)
  | binary (o : BinOp) (l r : Expr ν)
deriving DecidableEq

namespace Expr

/-- The same tree over other numbers. -/
def map {ν μ : Type} (f : ν → μ) : Expr ν → Expr μ
  | number x => number (f x)
  | paren e => paren (e.map f)
  | binary o l r => binary o (l.map f) (r.map f)

/-- How tightly a tree is held together: as its operator binds, and tighter than every operator without one. -/
def binding {ν : Type} : Expr ν → Nat
  | number _ => 3
  | paren _ => 3
  | binary o _ _ => o.precedence

/-- No parenthesis is missing: every operand binds at least as tightly as its operator, and a right operand more tightly. So
multiplications and divisions come before additions and subtractions, and operators that bind alike group to the left. -/
def Grouped {ν : Type} : Expr ν → Prop
  | number _ => True
  | paren e => e.Grouped
  | binary o l r => o.precedence ≤ l.binding ∧ o.precedence < r.binding ∧ l.Grouped ∧ r.Grouped

/-- The value in double arithmetic: every operator is applied to the values of its two operands. -/
def value : Expr Binary64 → Binary64
  | number x => x
  | paren e => e.value
  | binary o l r => o.apply l.value r.value

/-- The left operand, the right operand, then the operator; parentheses are not written. -/
def toPostfix : Expr Binary64 → List Token
  | number x => [.number x]
  | paren e => e.toPostfix
  | binary o l r => l.toPostfix ++ r.toPostfix ++ [.op o]

/-- Running the postfix writing of an expression pushes its value, whatever is on the stack and whatever comes after. -/
theorem runPostfix_toPostfix (e : Expr Binary64) (ts : List Token) (st : List Binary64) :
    runPostfix (e.toPostfix ++ ts) st = runPostfix ts (e.value :: st) := by
  induction e generalizing ts st with
  | number x => rfl
  | paren e ih => exact ih ts st
  | binary o l r ihl ihr =>
    simp only [toPostfix, List.append_assoc]
    rw [ihl, ihr]
    rfl

/-- The value of a postfix writing is the value of the expression. -/
theorem evalPostfix_toPostfix (e : Expr Binary64) : evalPostfix e.toPostfix = .ok e.value := by
  have h := runPostfix_toPostfix e [] []
  rw [List.append_nil] at h
  unfold evalPostfix
  rw [h]
  rfl

end Expr

end Calculator
