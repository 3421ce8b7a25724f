import SexprAsm.Text.Quoted

/-!
# JSON texts

A reader of JSON that keeps what a strict consumer may want to look at: the digits of numbers,
the order and repetition of fields. A string with half of a surrogate pair has no characters; it
is read as `none` and left to the consumer.
-/

namespace SexprAsm

open Text

/-- A JSON value. -/
inductive Json where
  | null
  | bool (b : Bool)
  /-- A number, as it is written. -/
  | number (digits : String)
  | string (text : Option String)
  | array (items : List Json)
  | object (fields : List (Option String × Json))
  deriving Repr, Inhabited

namespace Json

/-- The characters between tokens. -/
def isSpace (c : Char) : Bool := c == ' ' || c == '\n' || c == '\t' || c == '\r'

/-- Drops the space in front of a token. -/
def skipSpace (cs : List Char) : List Char := cs.dropWhile isSpace

/-- A piece of a string: a character, or a 16-bit unit named by its code. -/
inductive Piece where
  | char (c : Char)
  | unit (code : Nat)
  deriving DecidableEq, Repr

/-- The code is the first half of a surrogate pair. -/
def isHighSurrogate (n : Nat) : Bool := 0xD800 ≤ n && n < 0xDC00

/-- The code is the second half of a surrogate pair. -/
def isLowSurrogate (n : Nat) : Bool := 0xDC00 ≤ n && n < 0xE000

/-- Joins the surrogate pairs of a string. -/
def joinUnits : List Piece → Option (List Char)
  | [] => some []
  | .char c :: rest => (joinUnits rest).map (c :: ·)
  | .unit high :: rest =>
    if isHighSurrogate high then
      match rest with
      | .unit low :: rest =>
        if isLowSurrogate low then
          let code := 0x10000 + (high - 0xD800) * 0x400 + (low - 0xDC00)
          (joinUnits rest).map (Char.ofNat code :: ·)
        else none
      | _ => none
    else if isLowSurrogate high then none
    else (joinUnits rest).map (Char.ofNat high :: ·)

/-- The character that a letter names after a backslash. -/
def simpleEscape? : Char → Option Char
  | '"' => some '"'
  | '\\' => some '\\'
  | '/' => some '/'
  | 'b' => some '\x08'
  | 'f' => some '\x0c'
  | 'n' => some '\n'
  | 'r' => some '\r'
  | 't' => some '\t'
  | _ => none

/-- The pieces of a string up to its closing quote, and what follows it. The escape `u` takes four
hexadecimal digits. -/
def pieces? : List Char → Option (List Piece × List Char)
  | [] => none
  | '"' :: rest => some ([], rest)
  | '\\' :: 'u' :: a :: b :: c :: d :: rest =>
    if [a, b, c, d].all (isDigit 16) then
      (pieces? rest).map fun (pieces, rest) => (.unit (ofDigits 16 [a, b, c, d]) :: pieces, rest)
    else none
  | '\\' :: letter :: rest => do
    let c ← simpleEscape? letter
    let (pieces, rest) ← pieces? rest
    return (.char c :: pieces, rest)
  | c :: rest =>
    if c.toNat < 0x20 || c == '\\' then none
    else (pieces? rest).map fun (pieces, rest) => (.char c :: pieces, rest)

/-- A string after its opening quote, and what follows it. -/
def stringTail? (cs : List Char) : Option (Option String × List Char) :=
  (pieces? cs).map fun (pieces, rest) => ((joinUnits pieces).map String.ofList, rest)

/-- The digits that a number consists of in part, at least one. -/
def digitRun? (cs : List Char) : Option (List Char × List Char) :=
  let run := cs.takeWhile (isDigit 10)
  if run.isEmpty then none else some (run, cs.dropWhile (isDigit 10))

/-- The whole part of a number: a single zero, or digits that do not begin with one. -/
def wholePart? : List Char → Option (List Char × List Char)
  | '0' :: rest => some (['0'], rest)
  | cs => digitRun? cs

/-- The optional fraction of a number. -/
def fractionPart? : List Char → Option (List Char × List Char)
  | '.' :: rest => (digitRun? rest).map fun (run, rest) => ('.' :: run, rest)
  | cs => some ([], cs)

/-- The optional exponent of a number. -/
def exponentPart? : List Char → Option (List Char × List Char)
  | c :: rest =>
    if c == 'e' || c == 'E' then
      match rest with
      | sign :: digits =>
        if sign == '+' || sign == '-' then
          (digitRun? digits).map fun (run, rest) => (c :: sign :: run, rest)
        else (digitRun? rest).map fun (run, rest) => (c :: run, rest)
      | [] => none
    else some ([], c :: rest)
  | [] => some ([], [])

/-- A number, and what follows it. -/
def number? (cs : List Char) : Option (Json × List Char) := do
  let (sign, cs) := match cs with
    | '-' :: rest => (['-'], rest)
    | cs => ([], cs)
  let (whole, cs) ← wholePart? cs
  let (fraction, cs) ← fractionPart? cs
  let (exponent, cs) ← exponentPart? cs
  return (.number (String.ofList (sign ++ whole ++ fraction ++ exponent)), cs)

mutual

/-- A value, and what follows it; `fuel` bounds the number of tokens. -/
def value? (fuel : Nat) (cs : List Char) : Option (Json × List Char) :=
  match fuel with
  | 0 => none
  | fuel + 1 =>
    match skipSpace cs with
    | 'n' :: 'u' :: 'l' :: 'l' :: rest => some (.null, rest)
    | 't' :: 'r' :: 'u' :: 'e' :: rest => some (.bool true, rest)
    | 'f' :: 'a' :: 'l' :: 's' :: 'e' :: rest => some (.bool false, rest)
    | '"' :: rest => (stringTail? rest).map fun (text, rest) => (.string text, rest)
    | '[' :: rest =>
      match skipSpace rest with
      | ']' :: rest => some (.array [], rest)
      | rest => (items? fuel rest).map fun (items, rest) => (.array items, rest)
    | '\x7b' :: rest =>
      match skipSpace rest with
      | '\x7d' :: rest => some (.object [], rest)
      | rest => (fields? fuel rest).map fun (fields, rest) => (.object fields, rest)
    | rest => number? rest

/-- The items of an array, at least one, and what follows its bracket. -/
def items? (fuel : Nat) (cs : List Char) : Option (List Json × List Char) :=
  match fuel with
  | 0 => none
  | fuel + 1 => do
    let (item, rest) ← value? fuel cs
    match skipSpace rest with
    | ',' :: rest =>
      let (items, rest) ← items? fuel rest
      return (item :: items, rest)
    | ']' :: rest => return ([item], rest)
    | _ => none

/-- The fields of an object, at least one, and what follows its brace. -/
def fields? (fuel : Nat) (cs : List Char) :
    Option (List (Option String × Json) × List Char) :=
  match fuel with
  | 0 => none
  | fuel + 1 =>
    match skipSpace cs with
    | '"' :: rest => do
      let (key, rest) ← stringTail? rest
      match skipSpace rest with
      | ':' :: rest =>
        let (item, rest) ← value? fuel rest
        match skipSpace rest with
        | ',' :: rest =>
          let (fields, rest) ← fields? fuel rest
          return ((key, item) :: fields, rest)
        | '\x7d' :: rest => return ([(key, item)], rest)
        | _ => none
      | _ => none
    | _ => none

end

/-- Reads a text that holds one value. -/
def read? (text : String) : Option Json := do
  let cs := text.toList
  let (value, rest) ← value? (cs.length + 1) cs
  if (skipSpace rest).isEmpty then some value else none

end Json

end SexprAsm
