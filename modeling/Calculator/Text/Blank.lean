/-!
# Blanks

The characters that an expression may contain anywhere without a meaning: those with the Unicode property White_Space, and
the zero width no-break space, which has it not.
-/

namespace Calculator

namespace Text

/-- The ranges of the code points with the property White_Space, both ends included. -/
def whiteSpace : List (Nat × Nat) :=
  [(0x09, 0x0D), (0x20, 0x20), (0x85, 0x85), (0xA0, 0xA0), (0x1680, 0x1680), (0x2000, 0x200A), (0x2028, 0x2029),
    (0x202F, 0x202F), (0x205F, 0x205F), (0x3000, 0x3000)]

/-- A blank: white space or U+FEFF. -/
def isBlank (c : Char) : Bool :=
  whiteSpace.any (fun (lo, hi) => lo ≤ c.toNat && c.toNat ≤ hi) || c.toNat == 0xFEFF

/-- A text without its blanks. -/
def stripBlanks (s : List Char) : List Char := s.filter (!isBlank ·)

end Text

end Calculator
