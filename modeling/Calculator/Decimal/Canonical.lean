/-!
# Canonical number texts

The forms in which numbers are displayed, and which leave no zero that says nothing: a positional text has no zero in front
of a whole part and none at the end of a fraction, and an exponential one has one digit that is no zero before its point.
-/

namespace Calculator

namespace Text

/-- A digit that is no zero. -/
def IsNonzero (c : Char) : Prop := c.isDigit = true ∧ c ≠ '0'

instance (c : Char) : Decidable (IsNonzero c) := inferInstanceAs (Decidable (_ ∧ _))

/-- A zero alone, or digits of which the first is no zero. -/
inductive IsWhole : List Char → Prop where
  | zero : IsWhole ['0']
  | digits {c : Char} {v : List Char} : IsNonzero c → (∀ a ∈ v, a.isDigit = true) → IsWhole (c :: v)

/-- Nothing, or a point and digits of which the last is no zero. -/
inductive IsFraction : List Char → Prop where
  | none : IsFraction []
  | point {v : List Char} {c : Char} : (∀ a ∈ v, a.isDigit = true) → IsNonzero c → IsFraction ('.' :: (v ++ [c]))

/-- A power of ten with its sign, other than the zeroth. -/
inductive IsExponent : List Char → Prop where
  | signed {s c : Char} {v : List Char} : s = '+' ∨ s = '-' → IsNonzero c → (∀ a ∈ v, a.isDigit = true) →
      IsExponent ('e' :: s :: c :: v)

/-- A whole part and a fraction, without a sign. -/
def IsPlain (t : List Char) : Prop := ∃ w f, t = w ++ f ∧ IsWhole w ∧ IsFraction f

/-- A plain text with at most 21 digits before its point. -/
def IsPositional (t : List Char) : Prop := ∃ w f, t = w ++ f ∧ IsWhole w ∧ w.length ≤ 21 ∧ IsFraction f

/-- One digit, a fraction and a power of ten. -/
def IsExponential (t : List Char) : Prop := ∃ c f e, t = c :: (f ++ e) ∧ IsNonzero c ∧ IsFraction f ∧ IsExponent e

/-- A positional text with at most ten digits after its point, or an exponential one of which the power of ten, if it is
negative, is one of those from `e-7` to `e-10`. -/
def IsTenDecimal (t : List Char) : Prop :=
  (∃ w f, t = w ++ f ∧ IsWhole w ∧ w.length ≤ 21 ∧ IsFraction f ∧ f.tail.length ≤ 10) ∨
    ∃ c f e, t = c :: (f ++ e) ∧ IsNonzero c ∧ IsFraction f ∧ IsExponent e ∧
      ∀ v, e = 'e' :: '-' :: v → v ∈ ["7".toList, "8".toList, "9".toList, "10".toList]

/-- A positional or exponential text, with a minus sign or without. -/
def IsCanonical (t : List Char) : Prop :=
  ∃ sign body, t = sign ++ body ∧ (sign = [] ∨ sign = ['-']) ∧ (IsPositional body ∨ IsExponential body)

end Text

end Calculator
