import Calculator.Binary64.Basic

/-!
# Interchange format of doubles

The 64-bit pattern of a double: the sign, eleven bits for the exponent and fifty-two for the significand without its
leading bit. Reading takes every pattern of a NaN to the one NaN; writing gives it the quiet pattern without a payload.
-/

namespace Calculator

namespace Binary64

/-- The last fifty-two bits of a pattern are less than a leading bit. -/
theorem fraction_lt (n : Nat) : n % (1 <<< 52) < 1 <<< 52 := Nat.mod_lt _ (by decide)

/-- The double with this bit pattern. An exponent field of zero holds the magnitudes whose significand is not full, one of
all ones the infinities and NaNs, and any other adds the leading bit. -/
def ofBits (bits : UInt64) : Binary64 :=
  let neg := decide (bits.toNat / (1 <<< 63) = 1)
  let field := bits.toNat / (1 <<< 52) % 2048
  let fraction := bits.toNat % (1 <<< 52)
  if hmax : field = 2047 then
    if fraction = 0 then infinite neg else nan
  else if field = 0 then
    finite neg (.ofUnits fraction (Nat.lt_trans (fraction_lt _) (by decide)))
  else
    finite neg ⟨1 <<< 52 + fraction, field - 1, Nat.add_lt_add_left (fraction_lt _) (1 <<< 52), by omega,
      Or.inr (Nat.le_add_right _ _)⟩

/-- The exponent field and the fraction of a magnitude, as one number. -/
def magnitudeBits (a : Magnitude) : Nat :=
  if a.mant < 1 <<< 52 then a.mant else a.exp * (1 <<< 52) + a.mant

/-- The bit pattern of a double. -/
def toBits : Binary64 → UInt64
  | nan => 0x7ff8000000000000
  | infinite neg => if neg then 0xfff0000000000000 else 0x7ff0000000000000
  | finite neg a => UInt64.ofNat ((if neg then 1 <<< 63 else 0) + magnitudeBits a)

end Binary64

end Calculator
