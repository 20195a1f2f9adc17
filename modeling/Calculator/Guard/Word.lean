import Calculator.Guard

/-!
# Parentheses counted in a machine word

The check of the parentheses with the number of open ones in a word of 64 bits with a sign. A number that does not fit into the
word has an outcome of its own, so that it can be shown not to occur.
-/

namespace Calculator

namespace Guard

/-- The number of open parentheses after one more character; none if it does not fit into the word. -/
def countWord? (depth : Int64) (c : Char) : Option Int64 :=
  let next := depth + Int64.ofInt (weight c)
  if next.toInt = depth.toInt + weight c then some next else none

/-- What the check says of a text with `depth` parentheses open before it; none if a number does not fit into the word. -/
def checkWord? (depth : Int64) : List Char → Option (Except EvalError Unit)
  | [] => some (if depth = 0 then .ok () else .error .unbalanced)
  | c :: cs => do
    let next ← countWord? depth c
    if next < 0 then some (.error .unbalanced) else checkWord? next cs

end Guard

end Calculator
