import Calculator.Decimal.Basic

/-!
# Layouts of decimals

The two ways to write a decimal. The positional layout writes the zeros between the digits and the point; the scientific
one puts the point after the first digit and writes a signed power of ten. The canonical layout is positional for numbers
from a millionth up to below `10 ^ 21`, and scientific for all others.
-/

namespace Calculator

namespace Decimal

/-- Digits and zeros up to the point, and no point after a whole number. -/
def positional (d : Decimal) : List Char :=
  if d.digits.length ≤ d.point then
    d.digits ++ List.replicate (d.point - d.digits.length).toNat '0'
  else if 0 < d.point then
    d.digits.take d.point.toNat ++ '.' :: d.digits.drop d.point.toNat
  else
    '0' :: '.' :: (List.replicate (-d.point).toNat '0' ++ d.digits)

/-- The three texts of a positional layout: zeros after the digits, the point among the digits, or zeros between the point and
the digits. -/
theorem positional_cases (d : Decimal) :
    (∃ z : Nat, d.point = d.digits.length + z ∧ d.positional = d.digits ++ List.replicate z '0') ∨
      (∃ u v, d.digits = u ++ v ∧ u ≠ [] ∧ v ≠ [] ∧ d.point = u.length ∧ d.positional = u ++ '.' :: v) ∨
      ∃ z : Nat, d.point = -z ∧ d.positional = ['0'] ++ '.' :: (List.replicate z '0' ++ d.digits) := by
  unfold positional
  split
  · rename_i hlast
    exact Or.inl ⟨(d.point - d.digits.length).toNat, by omega, rfl⟩
  · rename_i hlast
    split
    · rename_i hfirst
      have htake : (d.digits.take d.point.toNat).length = d.point.toNat := by
        rw [List.length_take]
        omega
      have hdrop : (d.digits.drop d.point.toNat).length ≠ 0 := by
        rw [List.length_drop]
        omega
      refine Or.inr (Or.inl ⟨_, _, (List.take_append_drop d.point.toNat d.digits).symm, ?_, ?_, by omega, rfl⟩)
      · exact List.ne_nil_of_length_pos (by omega)
      · exact List.ne_nil_of_length_pos (by omega)
    · exact Or.inr (Or.inr ⟨(-d.point).toNat, by omega, rfl⟩)

/-- The sign of a power of ten is always written. -/
def exponentText (e : Int) : List Char :=
  'e' :: (if e < 0 then '-' else '+') :: Nat.toDigits 10 e.natAbs

/-- One digit before the point, the others after it. -/
def scientific (d : Decimal) : List Char :=
  let tail := d.digits.drop 1
  d.digits.take 1 ++ (if tail.isEmpty then [] else '.' :: tail) ++ exponentText (d.point - 1)

/-- The layout of displayed numbers. -/
def canonical (d : Decimal) : List Char :=
  if -6 < d.point ∧ d.point ≤ 21 then d.positional else d.scientific

end Decimal

end Calculator
