/-!
# Terminal styles

Colours of painted text, as escape sequences of a terminal.
-/

namespace SexprAsm

/-- The colours in use. -/
inductive Colour where
  | red
  | green
  | yellow
  | blue
  | purple
  | magenta
  | cyan
  | white
  | darkGray
  deriving DecidableEq, Repr

/-- The parameter of the escape sequence that selects a colour. -/
def Colour.code : Colour → Nat
  | red => 31
  | green => 32
  | yellow => 33
  | blue => 34
  | purple => 35
  | magenta => 35
  | cyan => 36
  | white => 37
  | darkGray => 90

/-- A colour, or none, and a weight. -/
structure Style where
  colour : Option Colour := none
  bold : Bool := false
  deriving DecidableEq, Repr

/-- A text in a style. -/
def Style.paint (style : Style) (text : String) : String :=
  let codes := (if style.bold then ["1"] else []) ++ (style.colour.map (toString ·.code)).toList
  if codes.isEmpty then text
  else "\x1b[" ++ ";".intercalate codes ++ "m" ++ text ++ "\x1b[0m"

end SexprAsm
