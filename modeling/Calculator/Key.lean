import Calculator.Token

/-!
# Keys

What a user presses, and the keys that the events of a keyboard send: each character of a typed text sends the key of the
same symbol, and Enter, Backspace and Escape stand for the keys that have none.
-/

namespace Calculator

/-- A key of the calculator. -/
inductive Key where
  /-- A digit, the point, an operator or a parenthesis. -/
  | symbol (c : Char)
  | clear
  | backspace
  | equals
deriving DecidableEq

/-- The keys of a keyboard that write no character and mean something here, and all the others. -/
inductive NamedKey where
  | enter
  | backspace
  | escape
  | other
deriving DecidableEq

/-- An event of the keyboard or the clipboard. -/
inductive Event where
  | text (s : List Char)
  | key (name : NamedKey) (pressed : Bool)
  | clipboard
deriving DecidableEq

namespace Key

/-- The key of a typed character: those of expressions write themselves, the sign of equality evaluates, and all others
have no key. -/
def ofChar? (c : Char) : Option Key :=
  if isExpressionChar c then some (symbol c)
  else if c = '=' then some equals
  else none

/-- The key of a named key of the keyboard. -/
def ofNamed? : NamedKey → Option Key
  | .enter => some equals
  | .backspace => some backspace
  | .escape => some clear
  | .other => none

end Key

namespace Event

/-- The keys that an event sends, in order. Only the press of a key counts, not its release, and the clipboard sends none. -/
def keys : Event → List Key
  | text s => s.filterMap Key.ofChar?
  | key name pressed => if pressed then (Key.ofNamed? name).toList else []
  | clipboard => []

end Event

end Calculator
