/-!
# Cutting texts

Searching a text for a piece of it, and taking a piece off either end.
-/

namespace SexprAsm.Text

/-- What follows `lead` in a text that begins with it. -/
def dropLead? (lead s : String) : Option String :=
  if lead.toList.isPrefixOf s.toList then
    some (String.ofList (s.toList.drop lead.toList.length))
  else none

/-- What precedes `tail` in a text that ends with it. -/
def dropTail? (tail s : String) : Option String :=
  if tail.toList.isSuffixOf s.toList then
    some (String.ofList (s.toList.take (s.toList.length - tail.toList.length)))
  else none

/-- The two sides of the first occurrence of `mark`, which is not empty. -/
def cut? (mark : List Char) : List Char → Option (List Char × List Char)
  | [] => none
  | c :: cs =>
    if mark.isPrefixOf (c :: cs) then some ([], (c :: cs).drop mark.length)
    else (cut? mark cs).map fun (before, after) => (c :: before, after)

/-- `needle` occurs in the text. -/
def occurs (needle : List Char) : List Char → Bool
  | [] => needle.isEmpty
  | c :: cs => needle.isPrefixOf (c :: cs) || occurs needle cs

/-- `n` copies of a character. -/
def repeated (n : Nat) (c : Char) : String := String.ofList (List.replicate n c)

/-- The characters that start before byte `offset` of a text in UTF-8. -/
def startingBefore : List Char → Nat → List Char
  | [], _ => []
  | c :: cs, offset =>
    if offset = 0 then [] else c :: startingBefore cs (offset - c.utf8Size)

/-- The number of bytes of a text in UTF-8. -/
def byteLength (cs : List Char) : Nat := (String.ofList cs).utf8ByteSize

/-- The two sides of byte `offset`, if that is a boundary between characters. -/
def cutAtByte? (cs : List Char) (offset : Nat) : Option (List Char × List Char) :=
  let before := startingBefore cs offset
  if byteLength before = offset then some (before, cs.drop before.length) else none

end SexprAsm.Text
