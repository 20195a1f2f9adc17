import Mathlib
import Calculator.Binary64.Value
import Calculator.Decimal.Reader
import Calculator.Grammar

/-!
# Exact and rounded values of expressions

A tree whose numbers are rationals has an exact value, unless it divides by zero, and a value in doubles in which every
number and every result is rounded once, to the nearest double.
-/

namespace Calculator

/-- Over characters, with literals read as the rationals they denote. -/
def Spelling.exact : Spelling Char ℚ := .literals Literal.toRat

/-- The exact result of an operation on rationals. A division by zero has none. -/
def BinOp.exactResult? (o : BinOp) (a b : ℚ) : Option ℚ :=
  match o with
  | add => some (a + b)
  | sub => some (a - b)
  | mul => some (a * b)
  | div => if b = 0 then none else some (a / b)

/-- The sign of a result that is exactly zero: a sum is negative when both summands are, and a product when one factor is. -/
def BinOp.zeroSign (o : BinOp) (s t : Bool) : Bool :=
  match o with
  | add => s && t
  | sub => s && !t
  | mul => s ^^ t
  | div => s ^^ t

/-- What a correctly rounded operation gives. On two finite doubles this is the double nearest to the exact result, a zero of
its own sign if that is zero, and for a division by zero an infinity, or a NaN when zero is divided. Infinities and NaNs are
worked with by the rules of IEEE 754. -/
def BinOp.Rounds (o : BinOp) (x y z : Binary64) : Prop :=
  match x, y with
  | .nan, _ => z = .nan
  | _, .nan => z = .nan
  | .finite s a, .finite t b =>
    match o.exactResult? (Binary64.finite s a).toRat (Binary64.finite t b).toRat with
    | some q => if q = 0 then z = Binary64.zero (o.zeroSign s t) else z.IsNearest q
    | none => z = if a.toRat = 0 then .nan else .infinite (s ^^ t)
  | .infinite s, .infinite t =>
    match o with
    | add => z = if s = t then .infinite s else .nan
    | sub => z = if s = t then .nan else .infinite s
    | mul => z = .infinite (s ^^ t)
    | div => z = .nan
  | .infinite s, .finite t b =>
    match o with
    | add => z = .infinite s
    | sub => z = .infinite s
    | mul => z = if b.toRat = 0 then .nan else .infinite (s ^^ t)
    | div => z = .infinite (s ^^ t)
  | .finite s a, .infinite t =>
    match o with
    | add => z = .infinite t
    | sub => z = .infinite !t
    | mul => z = if a.toRat = 0 then .nan else .infinite (s ^^ t)
    | div => z = Binary64.zero (s ^^ t)

namespace Expr

/-- The exact value of a tree, if no division by zero is in it. -/
def exactValue? : Expr ℚ → Option ℚ
  | number q => some q
  | paren e => e.exactValue?
  | binary o l r => do
    let a ← l.exactValue?
    let b ← r.exactValue?
    o.exactResult? a b

/-- The value of a tree in doubles, from the leaves up: every number is rounded to the nearest double, and every operation is
rounded correctly, on the values of its two operands. -/
def Rounds : Expr ℚ → Binary64 → Prop
  | number q, x => x.IsNearest q
  | paren e, x => e.Rounds x
  | binary o l r, z => ∃ x y, l.Rounds x ∧ r.Rounds y ∧ o.Rounds x y z

end Expr

end Calculator
