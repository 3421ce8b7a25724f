import SexprAsm.Decimal.Binary

/-!
# The shortest decimal of a magnitude

Among the decimals that round to a magnitude, those with the fewest digits, and of these the one
nearest to it. The search is exact: for one digit, two digits and so on it tests the two
neighbours of the magnitude on the grid of decimals with that many digits.
-/

namespace SexprAsm.Decimal

/-- Compares `a * 10 ^ i` with `n * 2 ^ j`. -/
def compareScaled (a : Nat) (i : Int) (n : Nat) (j : Int) : Ordering :=
  compare (a * wholePower 10 i * wholePower 2 (-j)) (n * wholePower 2 j * wholePower 10 (-i))

/-- The decimal lies among the reals that round to the magnitude: between the midpoints to its
two neighbours, these included when the significand is even. -/
def Magnitude.readBy (x : Magnitude) (d : Scientific) : Bool :=
  -- Counted in quarters of the last place, the midpoints are whole.
  let low := 4 * x.significand - (if x.narrowBelow then 1 else 2)
  let high := 4 * x.significand + 2
  let atLow := compareScaled d.digits d.exponent low (x.exponent - 2)
  let atHigh := compareScaled d.digits d.exponent high (x.exponent - 2)
  let closed := x.significand % 2 == 0
  (atLow == .gt || (closed && atLow == .eq)) && (atHigh == .lt || (closed && atHigh == .eq))

/-- The greatest `k` with `10 ^ k ≤ x`, for a positive magnitude. -/
def Magnitude.leadingPlace (x : Magnitude) : Int :=
  let num := x.significand * wholePower 2 x.exponent
  let den := wholePower 2 (-x.exponent)
  let k : Int := (digitCount num : Int) - digitCount den
  if den * wholePower 10 k ≤ num * wholePower 10 (-k) then k else k - 1

/-- The multiple of `10 ^ place` at or just below the magnitude. -/
def Magnitude.floorOn (x : Magnitude) (place : Int) : Nat :=
  (x.significand * wholePower 2 x.exponent * wholePower 10 (-place)) /
    (wholePower 2 (-x.exponent) * wholePower 10 place)

/-- The decimal with last digit at `place` that reads back, if there is one: of two, the nearer,
and the upper one if both are equally near. -/
def Magnitude.onGrid? (x : Magnitude) (place : Int) : Option Scientific :=
  let below : Scientific := ⟨x.floorOn place, place⟩
  let above : Scientific := ⟨below.digits + 1, place⟩
  if x.readBy below then
    if x.readBy above ∧
        compareScaled (below.digits + above.digits) place (2 * x.significand) x.exponent ≠ .gt then
      some above
    else some below
  else if x.readBy above then some above
  else none

/-- The exact decimal value of a magnitude. -/
def Magnitude.exact (x : Magnitude) : Scientific :=
  if 0 ≤ x.exponent then ⟨x.significand * wholePower 2 x.exponent, 0⟩
  else ⟨x.significand * wholePower 5 (-x.exponent), x.exponent⟩

/-- More digits than any magnitude of the two formats needs. -/
def digitLimit : Nat := 17

/-- The shortest decimal that reads back as a positive magnitude. -/
def Magnitude.shortest (x : Magnitude) : Scientific :=
  let lead := x.leadingPlace
  ((List.range digitLimit).findSome? fun (n : Nat) => x.onGrid? (lead - n)).getD x.exact

/-- The decimal digits without trailing zeros, most significant first. -/
def Scientific.significant (d : Scientific) : List Char :=
  ((Nat.toDigits 10 d.digits).reverse.dropWhile (· == '0')).reverse

/-- The place of the leading digit. -/
def Scientific.leadingPlace (d : Scientific) : Int := (digitCount d.digits : Int) - 1 + d.exponent

/-- Digits around the point: at least one on each side. -/
def positional (digits : List Char) (lead : Int) : List Char :=
  if lead < 0 then '0' :: '.' :: (List.replicate (-lead - 1).toNat '0' ++ digits)
  else
    let whole := lead.toNat + 1
    let fraction := digits.drop whole
    digits.take whole ++ List.replicate (whole - digits.length) '0' ++
      '.' :: (if fraction.isEmpty then ['0'] else fraction)

/-- One digit before the point, and the place of that digit as exponent. -/
def exponential (digits : List Char) (lead : Int) : List Char :=
  let fraction := digits.drop 1
  digits.take 1 ++ (if fraction.isEmpty then [] else '.' :: fraction) ++
    'e' :: (toString lead).toList

/-- The least and the greatest place of the leading digit for which numbers are written without
an exponent. -/
def positionalPlaces : Int × Int := (-4, 15)

/-- The text of a decimal that is not zero. -/
def Scientific.render (d : Scientific) : List Char :=
  let lead := d.leadingPlace
  if positionalPlaces.1 ≤ lead ∧ lead ≤ positionalPlaces.2 then positional d.significant lead
  else exponential d.significant lead

/-- The text of a finite magnitude: its shortest decimal. -/
def Magnitude.render (x : Magnitude) : List Char :=
  if x.significand = 0 then ['0', '.', '0'] else x.shortest.render

end SexprAsm.Decimal
