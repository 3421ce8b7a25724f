import SexprAsm.Text.Quoted
import SexprAsm.Value

/-!
# Reading literals

A bare token is a keyword, a number, or else plain text. A number has one of four forms, tried in
this order, each followed by letters that choose its kind:

* `0x` and hexadecimal digits, or `0` and octal digits, which spell a bit pattern;
* an optional sign and decimal digits;
* an optional sign and a decimal fraction, with a power of ten.

The first form that fits the whole token decides; if the number then does not fit its kind, the
token is text.
-/

namespace SexprAsm

open Text Decimal

/-- The literal that a keyword in lower case stands for. -/
def Value.ofKeyword? : String → Option Value
  | "nil" | "null" => some .null
  | "true" => some (.bool true)
  | "false" => some (.bool false)
  | "infinity" | "+infinity" => some (.ofMagnitude .double false BinaryFormat.double.infinityBits)
  | "-infinity" => some (.ofMagnitude .double true BinaryFormat.double.infinityBits)
  | "infinityf" | "+infinityf" => some (.ofMagnitude .single false BinaryFormat.single.infinityBits)
  | "-infinityf" => some (.ofMagnitude .single true BinaryFormat.single.infinityBits)
  | "nan" => some (.ofMagnitude .double false BinaryFormat.double.nanBits)
  | "nanf" => some (.ofMagnitude .single false BinaryFormat.single.nanBits)
  | _ => none

/-- The kind that the letters after a number ask for. -/
inductive Suffix where
  | plain
  | int (kind : IntKind)
  | float (kind : FloatKind)
  deriving DecidableEq, Repr

/-- Reads the letters after a number, in lower case. -/
def Suffix.ofLetters? : List Char → Option Suffix
  | [] => some .plain
  | ['b'] => some (.int .uint8)
  | ['s', 'b'] | ['b', 's'] => some (.int .int8)
  | ['s'] => some (.int .int16)
  | ['u', 's'] | ['s', 'u'] => some (.int .uint16)
  | ['u'] => some (.int .uint32)
  | ['l'] => some (.int .int64)
  | ['u', 'l'] | ['l', 'u'] => some (.int .uint64)
  | ['f'] => some (.float .single)
  | ['d'] | ['m'] => some (.float .double)
  | _ => none

/-- A number before its kind is chosen. -/
inductive Numeral where
  /-- A bit pattern in hexadecimal or octal digits. -/
  | pattern (n : Nat)
  /-- An integer in decimal digits. -/
  | integer (negative : Bool) (n : Nat)
  /-- A decimal fraction with a power of ten. -/
  | fraction (negative : Bool) (n : Scientific)
  deriving DecidableEq, Repr

namespace Numeral

/-- A non-empty run of digits of a base, and what follows it. -/
def digits? (base : Nat) (cs : List Char) : Option (List Char × List Char) :=
  let run := cs.takeWhile (isDigit base)
  if run.isEmpty then none else some (run, cs.dropWhile (isDigit base))

/-- An optional sign, and what follows it. -/
def sign : List Char → Bool × List Char
  | '-' :: cs => (true, cs)
  | '+' :: cs => (false, cs)
  | cs => (false, cs)

/-- Digits of a base up to the letters of a suffix. -/
def pattern? (base : Nat) (cs : List Char) : Option (Numeral × Suffix) := do
  let (run, rest) ← digits? base cs
  let suffix ← Suffix.ofLetters? rest
  return (.pattern (ofDigits base run), suffix)

/-- The form `0x` and hexadecimal digits. -/
def hexadecimal? : List Char → Option (Numeral × Suffix)
  | '0' :: 'x' :: cs => pattern? 16 cs
  | _ => none

/-- The form `0` and octal digits. -/
def octal? : List Char → Option (Numeral × Suffix)
  | '0' :: cs => pattern? 8 cs
  | _ => none

/-- The form of an optional sign and decimal digits. -/
def integer? (cs : List Char) : Option (Numeral × Suffix) := do
  let (negative, unsigned) := sign cs
  let (run, rest) ← digits? 10 unsigned
  let suffix ← Suffix.ofLetters? rest
  return (.integer negative (ofDigits 10 run), suffix)

/-- The digits before and after the point, and what follows. A point needs a digit after it, and
without a point there is a digit. -/
def point? (cs : List Char) : Option (List Char × List Char × List Char) :=
  let whole := cs.takeWhile (isDigit 10)
  match cs.dropWhile (isDigit 10) with
  | '.' :: rest => (digits? 10 rest).map fun (run, rest) => (whole, run, rest)
  | rest => if whole.isEmpty then none else some (whole, [], rest)

/-- An optional power of ten, and what follows. The mark `e` needs a digit after it. -/
def power? : List Char → Option (Int × List Char)
  | 'e' :: cs => do
    let (negative, unsigned) := sign cs
    let (run, rest) ← digits? 10 unsigned
    let n : Int := ofDigits 10 run
    return (if negative then -n else n, rest)
  | cs => some (0, cs)

/-- The form of a decimal fraction with a power of ten. -/
def fraction? (cs : List Char) : Option (Numeral × Suffix) := do
  let (negative, unsigned) := sign cs
  let (whole, part, rest) ← point? unsigned
  let (power, rest) ← power? rest
  let suffix ← Suffix.ofLetters? rest
  -- Every digit after the point takes one from the power of ten.
  return (.fraction negative ⟨ofDigits 10 (whole ++ part), power - part.length⟩, suffix)

/-- The first form that a token in lower case fits. -/
def split? (cs : List Char) : Option (Numeral × Suffix) :=
  hexadecimal? cs <|> octal? cs <|> integer? cs <|> fraction? cs

/-- A signed integer of a kind. A minus sign is out of range for an unsigned kind, even before
zero. -/
def signedInt? (k : IntKind) (negative : Bool) (n : Nat) : Option Value :=
  if negative && !k.signed then none
  else (k.ofInt? (if negative then -(n : Int) else n)).map (.int k)

/-- The value of a number at the kind that its suffix asks for. -/
def value? : Numeral → Suffix → Option Value
  | .pattern n, .plain => (IntKind.int32.ofPattern? n).map (.int .int32)
  | .pattern n, .int k => (k.ofPattern? n).map (.int k)
  | .pattern _, .float _ => none
  | .integer negative n, .plain => signedInt? .int32 negative n
  | .integer negative n, .int k => signedInt? k negative n
  | .integer negative n, .float k => some (.ofMagnitude k negative (k.format.ofScientific ⟨n, 0⟩))
  | .fraction negative n, .plain =>
    some (.ofMagnitude .double negative (BinaryFormat.double.ofScientific n))
  | .fraction _ _, .int _ => none
  | .fraction negative n, .float k => some (.ofMagnitude k negative (k.format.ofScientific n))

end Numeral

namespace Value

/-- The number that a token spells. -/
def ofNumber? (token : String) : Option Value := do
  let (numeral, suffix) ← Numeral.split? (asciiLower token).toList
  numeral.value? suffix

/-- The keyword that a token spells, in any case. -/
def ofWord? (token : String) : Option Value := ofKeyword? (asciiLower token)

/-- The literal of a trimmed bare token: a keyword, a number, or else the text itself. -/
def ofToken (token : String) : Value :=
  (ofWord? token <|> ofNumber? token).getD (.string token)

end Value

end SexprAsm
