import SexprAsm.Decimal.Shortest
import SexprAsm.Value.Literal

/-!
# Spelling literals

The canonical token of a value: read back, it gives an equal value of the same kind. Text is
written bare unless it would then read as something else.
-/

namespace SexprAsm

open Text

/-- A text that would not survive as a bare token. -/
def needsQuotes (text : String) : Bool :=
  text.isEmpty || (Value.ofWord? text).isSome || (Value.ofNumber? text).isSome ||
    text.toList.any fun c => structural.contains c || isIgnorable c

/-- A text as a token. -/
def quoteIfNeeded (text : String) : String :=
  if needsQuotes text then quote text else text

namespace Value

/-- The token of a floating-point bit pattern, without its suffix. -/
def floatSpelling (k : FloatKind) (bits : BitVec k.width) : String :=
  match k.format.read bits.toNat with
  | .nan => "nan"
  | .infinite negative => if negative then "-infinity" else "infinity"
  | .finite negative magnitude =>
    String.ofList ((if negative then ['-'] else []) ++ magnitude.render)

/-- The canonical token of a value. -/
def spelling : Value → String
  | null => "nil"
  | bool b => if b then "true" else "false"
  | int k bits => toString (k.toInt bits) ++ k.suffix
  | float k bits => floatSpelling k bits ++ k.suffix
  | string text => quoteIfNeeded text
  | typeName name => quoteIfNeeded name

end Value

end SexprAsm
