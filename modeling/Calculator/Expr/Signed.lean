import Mathlib
import Calculator.Expr.Exact

/-!
# Expressions with signed operands

What is typed: expressions in which a minus sign may also stand where an operand has to come, and negates the factor after
it. The calculator has no such sign. It writes a subtraction from zero instead, with no parentheses around it, and
`Signed.rewritten` is the tree of the expression that this makes.
-/

namespace Calculator

/-- An expression whose operands may be negated. -/
inductive Signed where
  | number (q : ℚ)
  | paren (e : Signed)
  | neg (e : Signed)
  | binary (o : BinOp) (l r : Signed)

namespace Signed

/-- The exact value, if no division by zero is in the expression. A minus sign negates its operand. -/
def exactValue? : Signed → Option ℚ
  | number q => some q
  | paren e => e.exactValue?
  | neg e => e.exactValue?.map (- ·)
  | binary o l r => do
    let a ← l.exactValue?
    let b ← r.exactValue?
    o.exactResult? a b

/-- The texts of each level with the trees of their derivations: the grammar of expressions, and in it a minus sign before a
factor, which is a factor again. So a minus sign may be the first character, and it may follow an operator, an open
parenthesis or another minus sign. -/
inductive Derives : Level → List Char → Signed → Prop where
  | number {w : List Char} : Literal.isLiteral w = true → Derives .factor w (.number (Literal.toRat w))
  | paren {w : List Char} {e : Signed} : Derives .sum w e → Derives .factor ('(' :: (w ++ [')'])) (.paren e)
  | neg {w : List Char} {e : Signed} : Derives .factor w e → Derives .factor ('-' :: w) (.neg e)
  | factor {w : List Char} {e : Signed} : Derives .factor w e → Derives .term w e
  | product {v w : List Char} {l r : Signed} {o : BinOp} :
      o.precedence = 2 → Derives .term v l → Derives .factor w r → Derives .term (v ++ o.symbol :: w) (.binary o l r)
  | term {w : List Char} {e : Signed} : Derives .term w e → Derives .sum w e
  | sum {v w : List Char} {l r : Signed} {o : BinOp} :
      o.precedence = 1 → Derives .sum v l → Derives .term w r → Derives .sum (v ++ o.symbol :: w) (.binary o l r)

end Signed

/-- A tree as the right operand of a left operand and an operator, if these are there. -/
def Expr.after (e : Expr ℚ) : Option (Expr ℚ × BinOp) → Expr ℚ
  | none => e
  | some (l, o) => .binary o l e

namespace Signed

/-- A signed expression written after a sum and then a term, each with an operator behind it, if they are there. What is
written then is a sum again, with its operator, and the term that it ends with. A minus sign makes a zero the last factor of
the term, and what it negates begins a new term. -/
def appendTo (sum term : Option (Expr ℚ × BinOp)) : Signed → Option (Expr ℚ × BinOp) × Expr ℚ
  | number q => (sum, (Expr.number q).after term)
  | paren e =>
    let (s, x) := e.appendTo none none
    (sum, (Expr.paren (x.after s)).after term)
  | neg e => e.appendTo (some (((Expr.number 0).after term).after sum, .sub)) none
  | binary o l r =>
    let (s, x) := l.appendTo sum term
    if o.precedence = 1 then r.appendTo (some (x.after s, o)) none else r.appendTo s (some (x, o))

/-- The tree of a signed expression with every minus sign of an operand made a subtraction from zero. The operators around
such a sign then take the zero or what follows it for their operands, as they bind. -/
def rewritten (e : Signed) : Expr ℚ := (e.appendTo none none).2.after (e.appendTo none none).1

/-- A sum or difference is closed before its right term. -/
theorem appendTo_of_sum {o : BinOp} (ho : o.precedence = 1) (l r : Signed) (s t : Option (Expr ℚ × BinOp)) :
    (binary o l r).appendTo s t =
      r.appendTo (some ((l.appendTo s t).2.after (l.appendTo s t).1, o)) none := by
  rw [appendTo]
  simp only [if_pos ho]

/-- A product or quotient goes on with the term that its left operand ends with. -/
theorem appendTo_of_product {o : BinOp} (ho : o.precedence = 2) (l r : Signed) (s t : Option (Expr ℚ × BinOp)) :
    (binary o l r).appendTo s t = r.appendTo (l.appendTo s t).1 (some ((l.appendTo s t).2, o)) := by
  have hne : o.precedence ≠ 1 := by omega
  rw [appendTo]
  simp only [if_neg hne]

end Signed

end Calculator
