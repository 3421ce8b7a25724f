/-!
# Blank characters and trimming

Two classes of characters stand between tokens: white space, as Unicode defines the property, and
control characters. Together they are the ignorable characters of a source text. Trimming drops a
class of characters from one or both ends of a text.
-/

namespace SexprAsm.Text

/-- The characters with the Unicode property `White_Space`. -/
def isWhitespace (c : Char) : Bool :=
  let n := c.toNat
  (0x9 ≤ n && n ≤ 0xD) || n == 0x20 || n == 0x85 || n == 0xA0 || n == 0x1680 ||
    (0x2000 ≤ n && n ≤ 0x200A) || n == 0x2028 || n == 0x2029 || n == 0x202F || n == 0x205F ||
    n == 0x3000

/-- The control characters, Unicode category `Cc`. -/
def isControl (c : Char) : Bool :=
  let n := c.toNat
  n < 0x20 || (0x7F ≤ n && n ≤ 0x9F)

/-- White space and control characters are skipped between tokens and trimmed from bare ones. -/
def isIgnorable (c : Char) : Bool := isWhitespace c || isControl c

/-- Drops the characters of a class from both ends. -/
def trimBy (p : Char → Bool) (cs : List Char) : List Char :=
  ((cs.dropWhile p).reverse.dropWhile p).reverse

/-- The text without white space at either end. -/
def trim (s : String) : String := String.ofList (trimBy isWhitespace s.toList)

/-- The text without white space at its end. -/
def trimEnd (s : String) : String :=
  String.ofList (s.toList.reverse.dropWhile isWhitespace).reverse

/-- The text with its ASCII letters in lower case. -/
def asciiLower (s : String) : String := String.ofList (s.toList.map Char.toLower)

end SexprAsm.Text
