import SexprAsm.Text.Cut

/-!
# Positions in a source text

Lines and columns count from one, columns in characters. A carriage return, a line feed, and the
two together each end one line.
-/

namespace SexprAsm

/-- A line and a column. -/
structure Position where
  line : Nat
  column : Nat
  deriving DecidableEq, Repr

namespace Position

/-- Where a walk over a text stands: its position, and whether it has just passed a carriage
return. -/
structure Cursor where
  position : Position := ⟨1, 1⟩
  afterReturn : Bool := false
  deriving DecidableEq, Repr

/-- One character further. -/
def Cursor.advance (k : Cursor) (c : Char) : Cursor :=
  if c = '\r' then ⟨⟨k.position.line + 1, 1⟩, true⟩
  else if c = '\n' then
    ⟨⟨if k.afterReturn then k.position.line else k.position.line + 1, 1⟩, false⟩
  else ⟨⟨k.position.line, k.position.column + 1⟩, false⟩

/-- The position of a byte offset: that of the first character which does not start before it. -/
def locate (source : String) (offset : Nat) : Position :=
  ((Text.startingBefore source.toList offset).foldl Cursor.advance {}).position

/-- The position in words. -/
def describe (p : Position) : String := s!"line {p.line}, column {p.column}"

end Position

end SexprAsm
