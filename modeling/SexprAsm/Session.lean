import SexprAsm.Program
import SexprAsm.Style

/-!
# Interactive sessions

A session takes one input after another and answers each with a text. A line that ends with a
backslash is continued by the next one; a line that begins with a colon is a command; any other
input is compiled, and its assembly shown.
-/

namespace SexprAsm

open Text

/-- What the terminal hands to a session. -/
inductive SessionInput where
  | line (text : String)
  | interrupt
  | finish
  /-- The terminal cannot read on. -/
  | failure (reason : String)
  deriving DecidableEq, Repr

/-- A session: what it compiles against, what it has compiled last, and the lines that are still
to be continued. -/
structure Session where
  setting : Setting
  coloured : Bool
  lastSource : Option String := none
  lastProgram : Option Program := none
  buffer : String := ""
  deriving Repr

/-- What an input leads to: the session after it, the text shown, and whether it goes on. -/
structure SessionStep where
  session : Session
  output : String
  continues : Bool := true

/-- What a session makes of a line. -/
inductive Reading where
  | command (input : String)
  /-- The line is continued by the next one; this is the text so far. -/
  | unfinished (text : String)
  | blank
  | source (text : String)
  deriving DecidableEq, Repr

/-- The names of the attributes that a slot has. -/
def Attributes.flags (a : Attributes) : List String :=
  (if a.exported then ["PUBLIC"] else []) ++
  (if a.syncNone then ["SYNC_NONE"] else []) ++
  (if a.syncLinear then ["SYNC_LINEAR"] else []) ++
  (if a.syncSmooth then ["SYNC_SMOOTH"] else []) ++
  (if a.defaultThis then ["DEFAULT_THIS"] else []) ++
  (if a.constant then ["CONSTANT"] else [])

/-- The attributes of a slot as the symbol table shows them. -/
def Attributes.describe (a : Attributes) : String :=
  let flags := if a.flags.isEmpty then "0x0" else " | ".intercalate a.flags
  "VariableAttributes(" ++ flags ++ ")"

/-- Paints a text, if colours are on. -/
def paintIf (coloured : Bool) (style : Style) (text : String) : String :=
  if coloured then style.paint text else text

/-- The symbol table of a program. -/
def Program.symbolTable (p : Program) (coloured : Bool) : String :=
  let entry := fun ((name, symbol) : String × Symbol) =>
    let value := symbol.value.elim "null" Value.spelling
    let paint := paintIf coloured
    "  " ++ paint ⟨some .blue, false⟩ name ++ " " ++ paint ⟨some .cyan, false⟩ symbol.type ++
      " = " ++ paint ⟨some .white, true⟩ value ++ " " ++
      paint ⟨some .darkGray, false⟩ symbol.attributes.describe ++ "\n"
  String.join (p.symbols.map entry) ++ "  heap size: " ++ toString p.heapSize ++ "\n"

/-- The word for the kind of an entry of the reference. -/
def SummaryKind.word : SummaryKind → String
  | type => "type"
  | constructor => "ctor"
  | cast => "cast"
  | operator => "op"
  | property => "prop"
  | method => "method"
  | event => "event"

/-- A text filled up with spaces to a width. -/
def padRight (width : Nat) (text : String) : String :=
  text ++ repeated (width - text.length) ' '

namespace Session

/-- A text in a colour. -/
def paint (s : Session) (colour : Colour) (text : String) : String :=
  paintIf s.coloured ⟨some colour, false⟩ text

/-- What a session shows before the first input. -/
def greeting (s : Session) : String :=
  s.paint .cyan "Katana REPL: enter an S-expression to see its assembly" ++ "\n" ++
    s.paint .darkGray "  Type :help for available commands" ++ "\n\n"

/-- The prompt in front of an input. -/
def prompt (s : Session) : String := if s.buffer.isEmpty then "katana" else "      "

/-- The commands, and two hints. -/
def help (s : Session) : String :=
  let command (words text : String) := "  " ++ s.paint .green words ++ "  " ++ text ++ "\n"
  let hint (text : String) := "  " ++ s.paint .darkGray text ++ "\n"
  "\n" ++
    command ":help, :h" "Show this help message" ++
    command ":query <text>" "Search the catalog" ++
    command ":tree" "Show the canonical form of the last input" ++
    command ":symbols" "Show the symbol table of the last program" ++
    command ":exit, :quit, :q" "Exit the REPL" ++
    "\n" ++
    hint "Example: (var(n, Int32, 0), =(n, +($(n), 1)))" ++
    hint "End a line with \\ to continue on the next line" ++
    "\n"

/-- The report of an error. -/
def report (s : Session) (e : ProgramError) : String :=
  s.paint .red "✗" ++ " " ++ s.paint .red e.message ++ "\n"

/-- What stands for an answer before anything has been compiled. -/
def nothingYet (s : Session) : String := s.paint .darkGray "  nothing compiled yet" ++ "\n"

/-- The entries of the reference that hold a text. -/
def queryAnswer (s : Session) (text : String) : String :=
  let found := s.setting.catalog.query text
  let entry (summary : Summary) :=
    "  " ++ padRight 6 (s.paint .yellow summary.kind.word) ++ " " ++
      s.paint .cyan summary.usage ++ "  " ++ s.paint .darkGray summary.signature ++ "\n"
  if found.isEmpty then s.paint .darkGray "  no matches" ++ "\n"
  else String.join (found.map entry)

/-- The last input in canonical form. -/
def treeAnswer (s : Session) : String :=
  match s.lastSource with
  | none => s.nothingYet
  | some source =>
    match Tree.read source with
    | .ok t => t.print ++ "\n"
    | .error e => s.report (.badSyntax e)

/-- Runs a command. -/
def command (s : Session) (input : String) : SessionStep :=
  let (name, argument) :=
    match cut? [' '] input.toList with
    | some (name, argument) => (String.ofList name, String.ofList argument)
    | none => (input, "")
  match name with
  | ":help" | ":h" => ⟨s, s.help, true⟩
  | ":query" => ⟨s, s.queryAnswer (trim argument), true⟩
  | ":tree" => ⟨s, s.treeAnswer, true⟩
  | ":symbols" => ⟨s, s.lastProgram.elim s.nothingYet (·.symbolTable s.coloured), true⟩
  | ":exit" | ":quit" | ":q" => ⟨s, "", false⟩
  | _ => ⟨s, s.paint .red ("Unknown command: " ++ input) ++ "\n", true⟩

/-- Compiles an input and shows its assembly. -/
def compileAndShow (s : Session) (source : String) : SessionStep :=
  let s := { s with lastSource := some source }
  match Program.compile s.setting source with
  | .ok program =>
    ⟨{ s with lastProgram := some program }, s.paint .blue "=>" ++ "\n" ++ program.assembly, true⟩
  | .error e => ⟨s, s.report e, true⟩

/-- Reads a line. Only a line that continues no other one is a command. -/
def readLine (s : Session) (line : String) : Reading :=
  if s.buffer.isEmpty ∧ (trim line).startsWith ":" then .command (trim line)
  else
    match dropTail? "\\" (trimEnd line) with
    | some head => .unfinished (s.buffer ++ head ++ "\n")
    | none =>
      let source := s.buffer ++ line
      if (trim source).isEmpty then .blank else .source source

/-- Takes a line. -/
def takeLine (s : Session) (line : String) : SessionStep :=
  match s.readLine line with
  | .command input => s.command input
  | .unfinished text => ⟨{ s with buffer := text }, "", true⟩
  | .blank => ⟨{ s with buffer := "" }, "", true⟩
  | .source text => { s with buffer := "" }.compileAndShow text

/-- Takes an input. -/
def step (s : Session) : SessionInput → SessionStep
  | .line text => s.takeLine text
  | .interrupt =>
    ⟨{ s with buffer := "" }, s.paint .yellow "^C (use :exit to quit)" ++ "\n", true⟩
  | .finish => ⟨s, "", false⟩
  | .failure reason => ⟨s, s.paint .red ("error: " ++ reason) ++ "\n", false⟩

end Session

/-- What a whole session shows: for each input asked for, the text since the one before and the
prompt; and the text after the last one. -/
structure Transcript where
  reads : List (String × String)
  output : String
  deriving DecidableEq, Repr

/-- Runs a session on a list of inputs; when they are used up, the session ends. `shown` is the
text since the last input. -/
def Session.run (s : Session) (shown : String) : List SessionInput → Transcript
  | [] => ⟨[(shown, s.prompt)], ""⟩
  | input :: inputs =>
    let next := s.step input
    if next.continues then
      let rest := next.session.run next.output inputs
      { rest with reads := (shown, s.prompt) :: rest.reads }
    else ⟨[(shown, s.prompt)], next.output⟩

end SexprAsm
