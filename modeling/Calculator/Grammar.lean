import Calculator.Decimal.Literal
import Calculator.Expr

/-!
# The grammar of expressions

Sums of terms, terms of factors, and factors that are numbers or sums in parentheses; both kinds of operators group to the
left. The grammar is stated once for words over any alphabet, and read over tokens and over characters.
-/

namespace Calculator

/-- The three levels of expressions, the loosest first. -/
inductive Level where
  | sum
  | term
  | factor
deriving DecidableEq

/-- How expressions are spelled over an alphabet `α`: which words are numbers, and the letters of the rest. -/
structure Spelling (α ν : Type) where
  number : List α → ν → Prop
  op : BinOp → α
  lparen : α
  rparen : α

namespace Spelling

/-- Over tokens, a number is one token. -/
def tokens : Spelling Token Binary64 where
  number w x := w = [.number x]
  op := .op
  lparen := .lparen
  rparen := .rparen

/-- Over characters, a number is a literal, and `f` is how literals are read. -/
def literals {ν : Type} (f : List Char → ν) : Spelling Char ν where
  number w x := Literal.isLiteral w = true ∧ x = f w
  op := BinOp.symbol
  lparen := '('
  rparen := ')'

/-- Over characters, with literals read as doubles. -/
def text : Spelling Char Binary64 := literals Literal.value

end Spelling

/-- The words of each level with the trees of their derivations. A tree has a node for every operator and every pair of
parentheses; the step from a level to the next looser one leaves no node. -/
inductive Derives {α ν : Type} (S : Spelling α ν) : Level → List α → Expr ν → Prop where
  | number {w : List α} {x : ν} : S.number w x → Derives S .factor w (.number x)
  | paren {w : List α} {e : Expr ν} :
      Derives S .sum w e → Derives S .factor (S.lparen :: (w ++ [S.rparen])) (.paren e)
  | factor {w : List α} {e : Expr ν} : Derives S .factor w e → Derives S .term w e
  | product {v w : List α} {l r : Expr ν} {o : BinOp} :
      o.precedence = 2 → Derives S .term v l → Derives S .factor w r →
      Derives S .term (v ++ S.op o :: w) (.binary o l r)
  | term {w : List α} {e : Expr ν} : Derives S .term w e → Derives S .sum w e
  | sum {v w : List α} {l r : Expr ν} {o : BinOp} :
      o.precedence = 1 → Derives S .sum v l → Derives S .term w r →
      Derives S .sum (v ++ S.op o :: w) (.binary o l r)

end Calculator
