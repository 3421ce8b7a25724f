import SexprAsm.Resolution
import SexprAsm.Style
import SexprAsm.Text.Cut
import SexprAsm.Value.Literal

/-!
# Highlighting a line

Cuts a line of source into styled spans. The length of a span is counted in bytes, and a line can
only be cut between two characters.
-/

namespace SexprAsm

open Text

/-- A piece of a line in a style. -/
structure Span where
  style : Style
  text : List Char
  deriving DecidableEq, Repr

namespace Highlight

/-- Where a quoted text ends that goes on with the given characters from byte `offset` on: after its
closing quote, or at the end of the line. An escaped character does not close it. -/
def quotedEnd (quote : Char) (offset : Nat) (escaped : Bool) : List Char → Nat
  | [] => offset
  | c :: cs =>
    let next := offset + c.utf8Size
    if c = '\\' ∧ !escaped then quotedEnd quote next true cs
    else if c = quote ∧ !escaped then next
    else quotedEnd quote next false cs

/-- The length of the quoted text that a text begins with, both quotes included. -/
def quotedLength (quote : Char) : List Char → Nat
  | [] => 0
  | c :: cs => quotedEnd quote c.utf8Size false cs

/-- The style of a bare token. -/
def tokenStyle (token : String) : Style :=
  if token ∈ Keyword.all then ⟨some .magenta, true⟩
  else if asciiLower token ∈ ["true", "false", "nil", "null"] then ⟨some .yellow, true⟩
  else if (Value.ofNumber? token).isSome then ⟨some .yellow, false⟩
  else ⟨some .cyan, false⟩

/-- The style and the length of the first span of a line that begins with `c`. -/
def firstSpan (c : Char) (cs : List Char) : Style × Nat :=
  if c = ';' then (⟨some .darkGray, false⟩, byteLength (c :: cs))
  else if c = '"' ∨ c = '\'' then (⟨some .green, false⟩, quotedLength c (c :: cs))
  else if c = '(' ∨ c = ')' ∨ c = ',' then (⟨some .white, true⟩, 1)
  else if c = '\\' then (⟨some .purple, false⟩, 1 + (cs.head?.map Char.utf8Size).getD 0)
  else if isIgnorable c then ({}, c.utf8Size)
  else
    -- A token may hold blanks, and those behind it are shown in its style.
    let token := (c :: cs).takeWhile fun c => !structural.contains c
    (tokenStyle (trim (String.ofList token)), byteLength token)

/-- The spans of a line, cut off one after another in at most `rounds` rounds. There are none if a
cut falls inside of a character, or if something of the line is left. -/
def spansWithin : Nat → List Char → Option (List Span)
  | _, [] => some []
  | 0, _ :: _ => none
  | rounds + 1, c :: cs => do
    let (style, length) := firstSpan c cs
    let (text, rest) ← cutAtByte? (c :: cs) length
    return ⟨style, text⟩ :: (← spansWithin rounds rest)

/-- The spans of a line, which take no more rounds than it has characters. -/
def spans? (line : String) : Option (List Span) := spansWithin line.toList.length line.toList

/-- The spans that are shown of a line. -/
def spans (line : String) : List Span := (spans? line).getD []

end Highlight

end SexprAsm
