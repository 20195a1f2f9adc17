import Calculator.Binary64.Basic
import Calculator.Binary64.Round
import Calculator.Binary64.Arith
import Calculator.Binary64.Bits
import Calculator.Decimal.Basic
import Calculator.Decimal.Literal
import Calculator.Decimal.Shortest
import Calculator.Decimal.Layout
import Calculator.Decimal.CheckedLayout
import Calculator.Decimal.Canonical
import Calculator.Error
import Calculator.Display
import Calculator.Token
import Calculator.Token.Lexer
import Calculator.Postfix
import Calculator.Text.Blank
import Calculator.Guard
import Calculator.Guard.Word
import Calculator.Evaluate
import Calculator.Key
import Calculator.State
import Calculator.Page
import Calculator.Expr
import Calculator.Grammar
import Calculator.Postfix.Scan
import Calculator.Text.Balanced
import Calculator.Token.Lexeme
import Calculator.Binary64.Value
import Calculator.Decimal.Reader
import Calculator.Expr.Exact
import Calculator.Expr.Signed
import Calculator.Expr.ZeroDivision
import Calculator.State.Log
import Calculator.State.Failure
import Calculator.Proofs.Grammar
import Calculator.Proofs.Scan
import Calculator.Proofs.Postfix
import Calculator.Proofs.Stack
import Calculator.Proofs.Lexer
import Calculator.Proofs.Guard
import Calculator.Proofs.Balanced
import Calculator.Proofs.Nearest
import Calculator.Proofs.Rounding
import Calculator.Proofs.Precision
import Calculator.Proofs.Literal
import Calculator.Proofs.HalfUp
import Calculator.Proofs.Evaluate
import Calculator.Proofs.Typing
import Calculator.Proofs.Minus
import Calculator.Proofs.Composing
import Calculator.Proofs.History
import Calculator.Proofs.ZeroDivision
import Calculator.Proofs.Layout
import Calculator.Proofs.ReadBack
import Calculator.Proofs.Digits
import Calculator.Proofs.Shortest
import Calculator.Proofs.Canonical
import Calculator.Proofs.TenDecimals
import Calculator.Proofs.Replay
import Calculator.Proofs.FifteenDigits
import Calculator.Proofs.PlainLiteral
import Calculator.Proofs.Order
import Calculator.Proofs.Accuracy
import Calculator.Proofs.Integers
import Calculator.Proofs.FewestDigits
import Calculator.Proofs.Failure
import Calculator.Proofs.ZeroDivisor
import Calculator.Proofs.Parenthesized
import Calculator.Proofs.PrintedTokens
import Calculator.Proofs.Unambiguous
