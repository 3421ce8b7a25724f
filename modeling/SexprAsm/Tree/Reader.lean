import SexprAsm.Text.Quoted
import SexprAsm.Tree
import SexprAsm.Value.Literal

/-!
# Reading a tree from a source text

A document is one item: a head, which is a quoted or a bare token, and an optional list of items
between parentheses. The reader is a machine that takes the source one character at a time. Its
nodes are numbered in the order in which their heads end, so a parent precedes its children.

* A bare head may hold comments, which vanish, and escaped characters, which lose their meaning;
  it is trimmed and read as a literal. An empty bare head is the null literal.
* A quoted head is text as it stands, with its escapes resolved.
* `()` encloses no item, though `(,)` encloses two.
-/

namespace SexprAsm

open Text

/-- What is wrong with a source text. -/
inductive SyntaxFault where
  | unexpectedCharacter (c : Char)
  | unexpectedQuote (quote : Char)
  | strayComma
  | unmatchedClose
  | missingClose
  | unterminatedString (quote : Char)
  | danglingEscape
  | invalidCodePoint (value : Nat)
  deriving DecidableEq, Repr

/-- The wording of a fault, without its position. -/
def SyntaxFault.message : SyntaxFault → String
  | unexpectedCharacter c => s!"unexpected character `{c}`"
  | unexpectedQuote quote => s!"quote `{quote}` must start a token"
  | strayComma => "`,` outside of a list"
  | unmatchedClose => "unmatched `)`"
  | missingClose => "missing `)`"
  | unterminatedString quote => s!"missing closing `{quote}`"
  | danglingEscape => "escape does not resolve"
  | invalidCodePoint value =>
    let digits := String.ofList (Nat.toDigits 16 value)
    s!"escape names invalid code point 0x{digits}"

/-- A fault and the byte offset it is reported at. -/
structure Fault where
  fault : SyntaxFault
  offset : Nat
  deriving DecidableEq, Repr

/-- A fault with its place in the source. -/
structure SyntaxError where
  fault : SyntaxFault
  offset : Nat
  position : Position
  deriving DecidableEq, Repr

/-- The wording of an error. -/
def SyntaxError.message (e : SyntaxError) : String :=
  let what := e.fault.message
  let place := e.position.describe
  s!"{what} at {place}"

namespace Reader

/-- Where the machine stands inside a quoted text. -/
inductive QuoteMode where
  | plain
  /-- After a backslash. -/
  | escape
  /-- After one or two octal digits. -/
  | octal (value count : Nat)
  /-- After a letter that wants `width` hexadecimal digits, some of which have come. -/
  | hex (letter : Char) (width : Nat) (digits : List Char)
  deriving DecidableEq, Repr

/-- Where the machine stands. -/
inductive Mode where
  /-- Before or inside a bare head. -/
  | head
  /-- After a backslash in a bare head. -/
  | headEscape
  /-- Inside a quoted head. -/
  | quoted (quote : Char) (mode : QuoteMode)
  /-- After a quoted head. -/
  | afterQuoted
  /-- After a list. -/
  | afterList
  deriving DecidableEq, Repr

/-- The state of the machine. -/
structure State where
  mode : Mode := .head
  /-- The rest of the line is a comment. -/
  inComment : Bool := false
  /-- The nodes made so far. -/
  nodes : Array Node := #[]
  /-- The lists that are not closed yet, innermost first. -/
  openLists : List NodeId := []
  /-- A comma precedes the head in its list. -/
  afterComma : Bool := false
  /-- The characters of the head, last first. -/
  text : List Char := []
  /-- Where the head starts. -/
  start : Option Nat := none
  deriving DecidableEq, Repr

/-- Ends the head at `offset`: its node is attached to the innermost open list. An empty bare head
makes no node if `skipEmpty` is set. -/
def State.endHead (s : State) (offset : Nat) (skipEmpty : Bool) : State :=
  let chars := s.text.reverse
  let bare := trimBy isIgnorable chars
  let tag? :=
    if s.mode = .afterQuoted then some (.string (String.ofList chars))
    else if !bare.isEmpty then some (Value.ofToken (String.ofList bare))
    else if skipEmpty then none
    else some .null
  let cleared := { s with text := [], start := none }
  match tag? with
  | none => cleared
  | some tag =>
    -- A head that starts nowhere is empty, and known by its end.
    let id := s.nodes.size
    let node : Node := { tag := tag, offset := some (s.start.getD offset) }
    match s.openLists with
    | [] => { cleared with nodes := s.nodes.push node }
    | parent :: _ =>
      let nodes := s.nodes.modify parent fun n => { n with children := n.children ++ [id] }
      { cleared with nodes := nodes.push { node with parent := some parent } }

/-- Adds a character to a bare head, which starts at its first character that is not ignorable. -/
def State.addToHead (s : State) (offset : Nat) (c : Char) : State :=
  { s with
    text := c :: s.text
    start := s.start <|> (if isIgnorable c then none else some offset) }

/-- Adds the character of a code point to a quoted head. -/
def State.addCodePoint (s : State) (offset value : Nat) : Except Fault State :=
  if value.isValidChar then .ok { s with text := Char.ofNat value :: s.text }
  else .error ⟨.invalidCodePoint value, offset⟩

/-- The delimiter `(`, `,` or `)` after a head. -/
def State.delimiter (s : State) (offset : Nat) (c : Char) : Except Fault State :=
  if c = '(' then
    -- The head of a list always makes a node, and that is the next one.
    let s' := s.endHead offset false
    .ok { s' with mode := .head, afterComma := false, openLists := s.nodes.size :: s.openLists }
  else if c = ',' then
    if s.openLists.isEmpty then .error ⟨.strayComma, offset⟩
    else .ok { s.endHead offset false with mode := .head, afterComma := true }
  else if s.openLists.isEmpty then .error ⟨.unmatchedClose, offset⟩
  else
    -- Nothing between the parentheses is no item, but nothing after a comma is one.
    .ok
      { s.endHead offset (!s.afterComma) with
        mode := .afterList
        openLists := s.openLists.drop 1 }

/-- A character before or inside a bare head. -/
def State.inHead (s : State) (offset : Nat) (c : Char) : Except Fault State :=
  if c = ';' then .ok { s with inComment := true }
  else if c = '\\' then .ok { s with mode := .headEscape }
  else if c = '"' ∨ c = '\'' then
    if s.start.isSome then .error ⟨.unexpectedQuote c, offset⟩
    else .ok { s with mode := .quoted c .plain, text := [], start := some offset }
  else if c = '(' ∨ c = ',' ∨ c = ')' then s.delimiter offset c
  else .ok (s.addToHead offset c)

/-- A character inside a quoted head, outside of its escapes. -/
def State.inPlain (s : State) (quote c : Char) : State :=
  if c = '\\' then { s with mode := .quoted quote .escape }
  else if c = quote then { s with mode := .afterQuoted }
  else { s with mode := .quoted quote .plain, text := c :: s.text }

/-- The character after a backslash in a quoted head. -/
def State.inEscape (s : State) (quote c : Char) : State :=
  match namedEscape? c, digit? 8 c, hexEscapeWidth? c with
  | some control, _, _ => { s with mode := .quoted quote .plain, text := control :: s.text }
  | none, some value, _ => { s with mode := .quoted quote (.octal value 1) }
  | none, none, some width => { s with mode := .quoted quote (.hex c width []) }
  | none, none, none => { s with mode := .quoted quote .plain, text := c :: s.text }

/-- A character inside a quoted head. An octal escape ends with its third digit or before a
character that is no octal digit. -/
def State.inQuoted (s : State) (offset : Nat) (quote : Char) (mode : QuoteMode) (c : Char) :
    Except Fault State :=
  match mode with
  | .plain => .ok (s.inPlain quote c)
  | .escape => .ok (s.inEscape quote c)
  | .octal value count =>
    match digit? 8 c with
    | some digit =>
      if count + 1 = 3 then
        { s with mode := .quoted quote .plain }.addCodePoint offset (value * 8 + digit)
      else .ok { s with mode := .quoted quote (.octal (value * 8 + digit) (count + 1)) }
    | none => do
      -- The character is not part of the escape that it ends.
      let s ← s.addCodePoint offset value
      return s.inPlain quote c
  | .hex letter width digits =>
    if isDigit 16 c then
      let digits := digits ++ [c]
      if digits.length = width then
        { s with mode := .quoted quote .plain }.addCodePoint offset (ofDigits 16 digits)
      else .ok { s with mode := .quoted quote (.hex letter width digits) }
    -- An escape that is cut short stands for its letter and digits as they are written.
    else .ok ({ s with text := digits.reverse ++ letter :: s.text }.inPlain quote c)

/-- A character after a quoted head. -/
def State.inAfterQuoted (s : State) (offset : Nat) (c : Char) : Except Fault State :=
  if c = '(' ∨ c = ',' ∨ c = ')' then s.delimiter offset c
  else if c = ';' then .ok { s with inComment := true }
  else if isIgnorable c then .ok s
  else .error ⟨.unexpectedCharacter c, offset⟩

/-- A character after a list. -/
def State.inAfterList (s : State) (offset : Nat) (c : Char) : Except Fault State :=
  if c = ';' then .ok { s with inComment := true }
  else if c = ',' then
    if s.openLists.isEmpty then .error ⟨.strayComma, offset⟩
    else .ok { s with mode := .head, afterComma := true }
  else if c = ')' then { s with mode := .head, afterComma := false }.delimiter offset c
  else if isIgnorable c then .ok s
  else .error ⟨.unexpectedCharacter c, offset⟩

/-- Takes the character at byte `offset`. -/
def State.step (s : State) (offset : Nat) (c : Char) : Except Fault State :=
  if s.inComment then .ok { s with inComment := c != '\n' }
  else
    match s.mode with
    | .head => s.inHead offset c
    | .headEscape => .ok ({ s with mode := .head }.addToHead offset c)
    | .quoted quote mode => s.inQuoted offset quote mode c
    | .afterQuoted => s.inAfterQuoted offset c
    | .afterList => s.inAfterList offset c

/-- Takes the characters of a text that starts at byte `offset`. -/
def State.run (s : State) (offset : Nat) : List Char → Except Fault State
  | [] => .ok s
  | c :: cs => do
    let s ← s.step offset c
    s.run (offset + c.utf8Size) cs

/-- Ends the source at byte `offset`. A blank source is a single null. -/
def State.finish (s : State) (offset : Nat) : Except Fault Tree :=
  match s.mode with
  | .headEscape => .error ⟨.danglingEscape, offset⟩
  | .quoted quote _ => .error ⟨.unterminatedString quote, s.start.getD offset⟩
  | .head | .afterQuoted | .afterList =>
    if !s.openLists.isEmpty then .error ⟨.missingClose, offset⟩
    else
      -- Without a list, the head is the whole document and ends here.
      let nodes := if s.nodes.isEmpty then (s.endHead offset true).nodes else s.nodes
      .ok (if nodes.isEmpty then Tree.single .null else ⟨nodes⟩)

end Reader

/-- Reads a source text. -/
def Tree.read? (source : String) : Except Fault Tree := do
  let s ← Reader.State.run {} 0 source.toList
  s.finish source.utf8ByteSize

/-- Reads a source text; a fault is located in it. -/
def Tree.read (source : String) : Except SyntaxError Tree :=
  match Tree.read? source with
  | .ok tree => .ok tree
  | .error e => .error ⟨e.fault, e.offset, Position.locate source e.offset⟩

end SexprAsm
