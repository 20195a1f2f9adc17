import Calculator.State

/-!
# The page of the calculator

The texts that the window shows, from top to bottom, the colour of the result, and the pad of twenty buttons with the key
that each one sends. The labels of three operators are typographic signs; their keys send the plain characters.
-/

namespace Calculator

/-- A button of the pad. -/
structure Button where
  label : String
  key : Key
deriving DecidableEq

namespace Button

/-- A button whose label is the symbol it sends. -/
def plain (c : Char) : Button := ⟨c.toString, .symbol c⟩

/-- The pad, row by row. -/
def pad : List (List Button) :=
  [[⟨"C", .clear⟩, ⟨"DEL", .backspace⟩, plain '(', plain ')'],
    [plain '7', plain '8', plain '9', ⟨"÷", .symbol '/'⟩],
    [plain '4', plain '5', plain '6', ⟨"×", .symbol '*'⟩],
    [plain '1', plain '2', plain '3', ⟨"−", .symbol '-'⟩],
    [plain '0', plain '.', ⟨"=", .equals⟩, plain '+']]

/-- The key that the button with this label sends. -/
def key? (label : String) : Option Key := (pad.flatten.find? (·.label == label)).map key

end Button

/-- A page: its texts in the order of painting, and the colour of the result. -/
structure Page where
  texts : List String
  resultColor : String
deriving DecidableEq

namespace Page

/-- The title of the window. -/
def title : String := "Bayzat Calculator"

/-- The line under the title. -/
def subtitle : String := "Simple. Accurate. Readable."

/-- The colour of a result. -/
def plainColor : String := "#e5e7eb"

/-- The colour of a result while an error is shown. -/
def errorColor : String := "#f87171"

/-- The texts of the history: nothing for an empty one, else a heading, the number of calculations and their lines. -/
def historyTexts (entries : List Entry) : List String :=
  if entries.isEmpty then []
  else "History" :: ("(" ++ toString entries.length ++ " items)") :: entries.map (String.ofList ·.text)

/-- The page of a state. A text that is empty is not painted. -/
def ofState (s : State) : Page where
  texts :=
    ([title, subtitle, String.ofList s.shownExpression, String.ofList s.result]
      ++ (s.error.map EvalError.message).toList
      ++ Button.pad.flatten.map Button.label
      ++ historyTexts s.history).filter (!·.isEmpty)
  resultColor := if s.error.isSome then errorColor else plainColor

end Page

end Calculator
