import SexprAsm.Text.Blank

/-!
# Quoted texts

The escapes of a quoted text, in both directions, and the writing of a text between double quotes.
-/

namespace SexprAsm.Text

/-- Characters that end a bare token or need quoting inside one. -/
def structural : List Char := ['(', ')', ',', ';', '"', '\'', '\\']

/-- The control character that a single letter names after a backslash. -/
def namedEscape? : Char → Option Char
  | 'a' => some '\x07'
  | 'b' => some '\x08'
  | 'e' => some '\x1b'
  | 'f' => some '\x0c'
  | 'n' => some '\n'
  | 'r' => some '\r'
  | 't' => some '\t'
  | 'v' => some '\x0b'
  | _ => none

/-- The letter that names a control character after a backslash. -/
def escapeLetter? : Char → Option Char
  | '\x07' => some 'a'
  | '\x08' => some 'b'
  | '\x1b' => some 'e'
  | '\x0c' => some 'f'
  | '\n' => some 'n'
  | '\r' => some 'r'
  | '\t' => some 't'
  | '\x0b' => some 'v'
  | _ => none

/-- The number of hexadecimal digits that follow a letter after a backslash. -/
def hexEscapeWidth? : Char → Option Nat
  | 'x' => some 2
  | 'u' => some 4
  | 'U' => some 8
  | _ => none

/-- The value of a digit below `base`, which is at most 16. -/
def digit? (base : Nat) (c : Char) : Option Nat :=
  let value? :=
    if '0' ≤ c ∧ c ≤ '9' then some (c.toNat - '0'.toNat)
    else if 'a' ≤ c ∧ c ≤ 'f' then some (c.toNat - 'a'.toNat + 10)
    else if 'A' ≤ c ∧ c ≤ 'F' then some (c.toNat - 'A'.toNat + 10)
    else none
  value?.filter (· < base)

/-- The character is a digit below `base`. -/
def isDigit (base : Nat) (c : Char) : Bool := (digit? base c).isSome

/-- The number that a run of digits spells, most significant digit first. -/
def ofDigits (base : Nat) (digits : List Char) : Nat :=
  digits.foldl (fun n c => n * base + (digit? base c).getD 0) 0

/-- A number below 16 as a lower-case digit. -/
def hexDigit (n : Nat) : Char := Nat.digitChar n

/-- One character of a quoted text, given what follows it. A null is written `\0` unless an octal
digit follows, with which it would read as a longer escape. -/
def escapeChar (c : Char) (following : List Char) : List Char :=
  if c = '"' ∨ c = '\\' then ['\\', c]
  else if c = '\x00' then
    if following.head?.any (isDigit 8) then ['\\', 'x', '0', '0'] else ['\\', '0']
  else
    match escapeLetter? c with
    | some letter => ['\\', letter]
    | none =>
      if isControl c then ['\\', 'x', hexDigit (c.toNat / 16), hexDigit (c.toNat % 16)] else [c]

/-- The inside of a quoted text. -/
def escape : List Char → List Char
  | [] => []
  | c :: cs => escapeChar c cs ++ escape cs

/-- The text between double quotes. -/
def quote (s : String) : String := String.ofList ('"' :: escape s.toList ++ ['"'])

end SexprAsm.Text
