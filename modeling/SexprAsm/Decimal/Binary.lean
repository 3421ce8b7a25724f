/-!
# Binary floating-point formats

A finite magnitude of a format is `significand * 2 ^ exponent`. This module reads the three fields
of a bit pattern, and rounds an exact decimal to the nearest magnitude of a format.
-/

namespace SexprAsm.Decimal

/-- The numerator of `base ^ e`, which is one if `e` is negative; the denominator is that of
`-e`. -/
def wholePower (base : Nat) (e : Int) : Nat := base.pow e.toNat

/-- The widths of the two fields below the sign bit. -/
structure BinaryFormat where
  fractionBits : Nat
  exponentBits : Nat
  deriving DecidableEq, Repr

namespace BinaryFormat

/-- 32-bit numbers. -/
def single : BinaryFormat := ⟨23, 8⟩

/-- 64-bit numbers. -/
def double : BinaryFormat := ⟨52, 11⟩

/-- The exponent of the least positive magnitude. -/
def leastExponent (f : BinaryFormat) : Int :=
  2 - Nat.pow 2 (f.exponentBits - 1) - f.fractionBits

/-- The magnitude bits of infinity: exponent field all ones, fraction zero. -/
def infinityBits (f : BinaryFormat) : Nat :=
  (Nat.pow 2 f.exponentBits - 1) * Nat.pow 2 f.fractionBits

/-- The magnitude bits of the NaN that a literal denotes: infinity with the top fraction bit set. -/
def nanBits (f : BinaryFormat) : Nat := f.infinityBits + Nat.pow 2 (f.fractionBits - 1)

/-- The sign bit. -/
def signBit (f : BinaryFormat) : Nat := Nat.pow 2 (f.exponentBits + f.fractionBits)

/-- A bit pattern with its sign bit as asked for. -/
def withSign (f : BinaryFormat) (negative : Bool) (magnitude : Nat) : Nat :=
  if negative then f.signBit + magnitude else magnitude

end BinaryFormat

/-- A magnitude `significand * 2 ^ exponent` of some format. -/
structure Magnitude where
  significand : Nat
  exponent : Int
  /-- The next magnitude below is half as far away as the next one above. -/
  narrowBelow : Bool
  deriving Repr

/-- What a bit pattern stands for. -/
inductive Reading where
  | nan
  | infinite (negative : Bool)
  | finite (negative : Bool) (magnitude : Magnitude)
  deriving Repr

/-- Splits a bit pattern into its fields. -/
def BinaryFormat.read (f : BinaryFormat) (bits : Nat) : Reading :=
  let negative := f.signBit ≤ bits
  let magnitude := bits % f.signBit
  let field := magnitude / Nat.pow 2 f.fractionBits
  let fraction := magnitude % Nat.pow 2 f.fractionBits
  if field = Nat.pow 2 f.exponentBits - 1 then
    if fraction = 0 then .infinite negative else .nan
  -- Without an exponent the leading digit is not implied.
  else if field = 0 then .finite negative ⟨fraction, f.leastExponent, false⟩
  else
    .finite negative
      { significand := Nat.pow 2 f.fractionBits + fraction
        exponent := f.leastExponent + (field - 1 : Nat)
        narrowBelow := fraction == 0 && field != 1 }

/-- A decimal `digits * 10 ^ exponent`. -/
structure Scientific where
  digits : Nat
  exponent : Int
  deriving DecidableEq, Repr

/-- The number of decimal digits of a number; zero has one. -/
def digitCount (n : Nat) : Nat := (Nat.toDigits 10 n).length

/-- The quotient rounded to the nearest number, and to the even one of two equally near. -/
def roundHalfEven (num den : Nat) : Nat :=
  let floor := num / den
  let twice := 2 * (num % den)
  if den < twice ∨ (twice = den ∧ floor % 2 = 1) then floor + 1 else floor

/-- The greatest `e` with `2 ^ e ≤ num / den`, both numbers being positive. -/
def log2Ratio (num den : Nat) : Int :=
  let e : Int := (num.log2 : Int) - den.log2
  if den * wholePower 2 e ≤ num * wholePower 2 (-e) then e else e - 1

/-- The magnitude bits nearest to `num / den`, ties to an even significand. -/
def BinaryFormat.nearest (f : BinaryFormat) (num den : Nat) : Nat :=
  let exponent := max (log2Ratio num den - f.fractionBits) f.leastExponent
  let significand := roundHalfEven (num * wholePower 2 (-exponent)) (den * wholePower 2 exponent)
  -- A carry moves to the next exponent by itself, and past the greatest magnitude stands infinity.
  min ((exponent - f.leastExponent).toNat * Nat.pow 2 f.fractionBits + significand) f.infinityBits

/-- Decimals whose leading digit stands further than this from the point are beyond every
magnitude, or below half the least one, of both formats. -/
def farPlace : Int := 400

/-- The magnitude bits nearest to a decimal. -/
def BinaryFormat.ofScientific (f : BinaryFormat) (d : Scientific) : Nat :=
  let place := (digitCount d.digits : Int) + d.exponent
  if d.digits = 0 ∨ place < -farPlace then 0
  else if farPlace < place then f.infinityBits
  else f.nearest (d.digits * wholePower 10 d.exponent) (wholePower 10 (-d.exponent))

end SexprAsm.Decimal
