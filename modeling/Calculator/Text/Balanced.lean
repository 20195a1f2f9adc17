/-!
# Balanced words

The words of matching parentheses, by their grammar: nothing, or a balanced word in parentheses followed by another one.
-/

namespace Calculator

namespace Text

/-- A word of matching parentheses. -/
inductive Balanced : List Char → Prop where
  | nil : Balanced []
  | wrap {u v : List Char} : Balanced u → Balanced v → Balanced ('(' :: (u ++ ')' :: v))

/-- The parentheses of a text, in their order. -/
def parens (s : List Char) : List Char := s.filter fun c => c == '(' || c == ')'

end Text

end Calculator
