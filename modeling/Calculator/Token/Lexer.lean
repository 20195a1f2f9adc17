import Calculator.Decimal.Literal
import Calculator.Token

/-!
# From characters to tokens

A literal is a longest run of digits and points; every other token is one character. Nothing is skipped: a blank is refused
like any other character that begins no token.
-/

namespace Calculator

/-- The tokens of a text, from left to right. -/
def tokenize : List Char → Except EvalError (List Token)
  | [] => .ok []
  | c :: cs =>
    match Token.ofChar? c with
    | some t => do
      let ts ← tokenize cs
      return t :: ts
    | none =>
      let run := (c :: cs).takeWhile Literal.isNumeral
      if Literal.isLiteral run then do
        let ts ← tokenize (cs.dropWhile Literal.isNumeral)
        return .number (Literal.value run) :: ts
      else .error .malformed
termination_by s => s.length
decreasing_by
  · simp
  · have := (List.dropWhile_suffix Literal.isNumeral (l := cs)).length_le
    simp only [List.length_cons]
    omega

/-- A character that is a token by itself. -/
theorem tokenize_symbol {c : Char} {t : Token} (h : Token.ofChar? c = some t) (cs : List Char) :
    tokenize (c :: cs) = (tokenize cs).map (t :: ·) := by
  rw [tokenize]
  simp only [h]
  cases tokenize cs <;> rfl

/-- A character that is not: with the numerals after it, it is a literal, or the text is refused. -/
theorem tokenize_run {c : Char} (h : Token.ofChar? c = none) (cs : List Char) :
    tokenize (c :: cs) =
      if Literal.isLiteral ((c :: cs).takeWhile Literal.isNumeral) then
        (tokenize (cs.dropWhile Literal.isNumeral)).map
          (.number (Literal.value ((c :: cs).takeWhile Literal.isNumeral)) :: ·)
      else .error .malformed := by
  rw [tokenize]
  simp only [h]
  split
  · cases tokenize (cs.dropWhile Literal.isNumeral) <;> rfl
  · rfl

end Calculator
