import Mathlib
import Calculator.Expr.Exact

/-!
# Divisions by zero inside an expression

A division by zero gives an infinity or a NaN, and so does a number or a result that is too large. Operations pass these on,
but for one: a finite number divided by an infinity is a zero. `Expr.Reaches` says that no such division stands between a
part of an expression and the whole of it.
-/

namespace Calculator

namespace Expr

/-- A division whose right operand has one of the zeros for its value in doubles. -/
def DividesByZero : Expr ℚ → Prop
  | binary .div _ r => ∃ neg, r.Rounds (.zero neg)
  | _ => False

/-- A number, or an operation on finite doubles with an exact result, that is too large for a finite double. -/
def Overflows : Expr ℚ → Prop
  | number q => Binary64.overflowBound ≤ |q|
  | paren _ => False
  | binary o l r => ∃ x y q, l.Rounds x ∧ r.Rounds y ∧ x.isFinite = true ∧ y.isFinite = true ∧
      o.exactResult? x.toRat y.toRat = some q ∧ Binary64.overflowBound ≤ |q|

/-- A division of a finite double by an infinity. -/
def DividesByInfinity (o : BinOp) (l r : Expr ℚ) : Prop :=
  o = .div ∧ (∃ x, l.Rounds x ∧ x.isFinite = true) ∧ ∃ neg, r.Rounds (.infinite neg)

/-- The first expression is a part of the second one, and on the way up from it no finite double is divided by an infinity. -/
inductive Reaches : Expr ℚ → Expr ℚ → Prop where
  | here {e : Expr ℚ} : Reaches e e
  | paren {d e : Expr ℚ} : Reaches d e → Reaches d (.paren e)
  | left {d l r : Expr ℚ} {o : BinOp} : Reaches d l → Reaches d (.binary o l r)
  | right {d l r : Expr ℚ} {o : BinOp} : Reaches d r → ¬DividesByInfinity o l r → Reaches d (.binary o l r)

end Expr

end Calculator
