import Calculator.Decimal.Literal
import Calculator.Token

/-!
# Lexemes

The lexical grammar of expressions: a text is a sequence of lexemes, each a literal or one of six characters, and no two
literals are neighbours, since together they would be one run of digits and points. The literals that a text divides by, and
those of zero.
-/

namespace Calculator

/-- The spellings of each token. -/
inductive Lexeme : List Char → Token → Prop where
  | literal {w : List Char} : Literal.isLiteral w = true → Lexeme w (.number (Literal.value w))
  | op (o : BinOp) : Lexeme [o.symbol] (.op o)
  | lparen : Lexeme ['('] .lparen
  | rparen : Lexeme [')'] .rparen

/-- The token is a number. -/
def Token.isNumber : Token → Bool
  | .number _ => true
  | _ => false

/-- The text is the lexemes in a row and the tokens are theirs, no two numbers being neighbours. -/
inductive Lexemes : List (List Char) → List Token → Prop where
  | nil : Lexemes [] []
  | cons {w : List Char} {t : Token} {ws : List (List Char)} {ts : List Token} :
      Lexeme w t → Lexemes ws ts → (t.isNumber = true → ts.head?.any Token.isNumber = false) →
      Lexemes (w :: ws) (t :: ts)

namespace Literal

/-- Somewhere in the text a division sign is directly followed by this literal, which does not go on. -/
def DividesIn (w s : List Char) : Prop :=
  ∃ u v, s = u ++ '/' :: (w ++ v) ∧ isLiteral w = true ∧ ∀ c ∈ v.head?, isNumeral c = false

/-- All digits are zeros. -/
def IsZero (w : List Char) : Prop := ∀ c ∈ w, c.isDigit = true → c = '0'

end Literal

end Calculator
