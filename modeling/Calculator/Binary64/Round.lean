import Calculator.Binary64.Basic

/-!
# Rounding to the nearest double

Every operation whose exact result may fall between two doubles computes that result as a quotient of natural numbers of
units and rounds it here, once. The spacing of the doubles around a quotient is fixed by its number of bits; the
significand is the quotient on that grid, rounded to the nearest integer, a half going to the even one.
-/

namespace Calculator

/-- The integer nearest to `n / d`, a half going to the even neighbour. -/
def roundHalfEven (n d : Nat) : Nat :=
  let q := n / d
  let r := n % d
  if 2 * r < d then q else if d < 2 * r then q + 1 else q + q % 2

theorem div_le_roundHalfEven (n d : Nat) : n / d ≤ roundHalfEven n d := by
  unfold roundHalfEven
  dsimp only
  split
  · exact Nat.le_refl _
  · split <;> omega

theorem roundHalfEven_le (n d : Nat) : roundHalfEven n d ≤ n / d + 1 := by
  unfold roundHalfEven
  dsimp only
  split
  · exact Nat.le_add_right _ _
  · split <;> omega

/-- A quotient that is an integer is not changed. -/
theorem roundHalfEven_mul (q : Nat) {d : Nat} (h : 0 < d) : roundHalfEven (q * d) d = q := by
  unfold roundHalfEven
  rw [Nat.mul_div_cancel q h, Nat.mul_mod_left]
  simp [h]

namespace Magnitude

/-- The exponent of the grid on which `n / d` units are rounded: it leaves 53 bits of the whole part, and is zero when
there are fewer. -/
def gridExponent (n d : Nat) : Nat := (n / d).log2 - 52

/-- On a grid finer than needed the significand would be too long, on a coarser one too short: with the exponent of
`gridExponent`, the quotient keeps its leading bit at place 52. -/
theorem full_on_grid (n d : Nat) :
    gridExponent n d = 0 ∨ 1 <<< 52 ≤ roundHalfEven n (d <<< gridExponent n d) := by
  by_cases h : gridExponent n d = 0
  · exact Or.inl h
  · refine Or.inr (Nat.le_trans ?_ (div_le_roundHalfEven _ _))
    have hlog : (n / d).log2 = 52 + gridExponent n d := by unfold gridExponent at h ⊢; omega
    have hne : n / d ≠ 0 := by
      intro h0
      rw [h0, Nat.log2_zero] at hlog
      omega
    have hle := Nat.log2_self_le hne
    have hd : 0 < d := by
      rcases Nat.eq_zero_or_pos d with h0 | h0
      · rw [h0, Nat.div_zero] at hne
        exact absurd rfl hne
      · exact h0
    rw [hlog, Nat.pow_add, ← Nat.one_shiftLeft 52] at hle
    rw [Nat.shiftLeft_eq d, ← Nat.div_div_eq_div_mul]
    exact (Nat.le_div_iff_mul_le (Nat.two_pow_pos _)).2 hle

/-- The magnitude nearest to `n / d` units, a tie going to the even significand; none when it is too large for a finite
double. A significand that rounds up to 54 bits is the first one of the next grid. -/
def ofRatio? (n d : Nat) : Option Magnitude :=
  let e := gridExponent n d
  let m := roundHalfEven n (d <<< e)
  if hm : m < 1 <<< 53 then
    if he : e ≤ 2045 then some ⟨m, e, hm, he, full_on_grid n d⟩ else none
  else
    if he : e + 1 ≤ 2045 then some ⟨1 <<< 52, e + 1, by decide, he, Or.inr (Nat.le_refl _)⟩ else none

end Magnitude

namespace Binary64

/-- The double nearest to `n / d` units with this sign, an infinity when the quotient is too large. A quotient that rounds
to zero keeps the sign. -/
def ofRatio (neg : Bool) (n d : Nat) : Binary64 :=
  match Magnitude.ofRatio? n d with
  | some mag => finite neg mag
  | none => infinite neg

/-- The double nearest to a whole number of ones. -/
def ofNat (n : Nat) : Binary64 := ofRatio false (n * Magnitude.unitsInOne) 1

end Binary64

end Calculator
