import SexprAsm.Session

/-!
# The command line

Arguments, and what a run without a terminal does: it loads a catalogue, compiles a file, and
shows its assembly. Without a file a session begins.
-/

namespace SexprAsm

open Text

/-- Why arguments end a run before it begins. -/
inductive UsageError where
  | unknownArgument
  | invalidValue
  | argumentConflict
  | tooManyValues
  | displayHelp
  | displayVersion
  deriving DecidableEq, Repr

/-- The flags. -/
inductive Flag where
  | noTypeCheck
  | symbols
  | tree
  | noColor
  deriving DecidableEq, Repr

/-- The flag of a long name. -/
def Flag.ofName? : String → Option Flag
  | "no-type-check" => some .noTypeCheck
  | "symbols" => some .symbols
  | "tree" => some .tree
  | "no-color" => some .noColor
  | _ => none

/-- The arguments of a run. -/
structure Arguments where
  file : Option String := none
  catalog : Option String := none
  flags : List Flag := []
  deriving DecidableEq, Repr

namespace Arguments

/-- A flag is set. -/
def has (a : Arguments) (flag : Flag) : Bool := flag ∈ a.flags

/-- An argument whose value is checked once the next argument is known. -/
inductive Pending where
  | nothing
  /-- The catalogue option, which still wants its value. -/
  | wantsCatalog
  | catalog (path : String)
  | file (path : String)
  deriving DecidableEq, Repr

/-- Where the walk over the arguments stands. -/
structure Scan where
  arguments : Arguments := {}
  pending : Pending := .nothing
  /-- A file has been named. -/
  named : Bool := false
  /-- All further arguments are files. -/
  trailing : Bool := false
  deriving DecidableEq, Repr

/-- Sets the catalogue, once. -/
def setCatalog (a : Arguments) (path : String) : Except UsageError Arguments :=
  if a.catalog.isSome then .error .argumentConflict
  else if path.isEmpty then .error .invalidValue
  else .ok { a with catalog := some path }

/-- Settles the pending argument. -/
def Scan.settle (s : Scan) : Except UsageError Scan :=
  match s.pending with
  | .nothing => .ok s
  | .wantsCatalog => .error .invalidValue
  | .catalog path => do
    return { s with arguments := ← s.arguments.setCatalog path, pending := .nothing }
  | .file path =>
    if path.isEmpty then .error .invalidValue
    else .ok { s with arguments := { s.arguments with file := some path }, pending := .nothing }

/-- Takes the name of a file. -/
def Scan.positional (s : Scan) (path : String) : Except UsageError Scan := do
  if s.named then throw .unknownArgument
  return { ← s.settle with pending := .file path, named := true }

/-- Takes a long option, with its value if one is attached. -/
def Scan.long (s : Scan) (name : String) (value : Option String) : Except UsageError Scan :=
  match Flag.ofName? name, name with
  | some flag, _ => do
    if value.isSome then throw .tooManyValues
    let s ← s.settle
    if s.arguments.has flag then throw .argumentConflict
    return { s with arguments := { s.arguments with flags := s.arguments.flags ++ [flag] } }
  | none, "catalog" => do
    let s ← s.settle
    match value with
    | some path => return { s with arguments := ← s.arguments.setCatalog path }
    | none => return { s with pending := .wantsCatalog }
  | none, "help" => do
    if value.isSome then throw .tooManyValues
    let _ ← s.settle
    throw .displayHelp
  | none, "version" => do
    if value.isSome then throw .tooManyValues
    let _ ← s.settle
    throw .displayVersion
  | none, _ => .error .unknownArgument

/-- Takes a short option. -/
def Scan.short (s : Scan) : List Char → Except UsageError Scan
  | 'h' :: _ => do
    let _ ← s.settle
    throw .displayHelp
  | 'V' :: _ => do
    let _ ← s.settle
    throw .displayVersion
  | _ => .error .unknownArgument

/-- Takes an argument. -/
def Scan.take (s : Scan) (argument : String) : Except UsageError Scan :=
  if s.trailing then s.positional argument
  else
    match argument.toList with
    | ['-', '-'] => .ok { s with trailing := true }
    | '-' :: '-' :: option =>
      match cut? ['='] option with
      | some (name, value) => s.long (String.ofList name) (some (String.ofList value))
      | none => s.long (String.ofList option) none
    | '-' :: c :: cs => s.short (c :: cs)
    | _ =>
      if s.pending = .wantsCatalog then .ok { s with pending := .catalog argument }
      else s.positional argument

/-- Reads the arguments of a run. -/
def parse (arguments : List String) : Except UsageError Arguments := do
  let s ← arguments.foldlM Scan.take {}
  return (← s.settle).arguments

end Arguments

/-- Why a file cannot be read as text. -/
inductive FileFault where
  | missing
  | notText
  | other (reason : String)
  deriving DecidableEq, Repr

/-- The wording of a fault. -/
def FileFault.message : FileFault → String
  | missing => "No such file or directory (os error 2)"
  | notText => "stream did not contain valid UTF-8"
  | other reason => reason

/-- Why a run fails. -/
inductive RunError where
  | file (path : String) (fault : FileFault)
  | manifest (path : String)
  | program (e : ProgramError)
  deriving DecidableEq, Repr

/-- The wording of an error. -/
def RunError.message : RunError → String
  | file path fault =>
    let reason := fault.message
    s!"cannot read {path}: {reason}"
  | manifest path => s!"invalid catalog {path}: the text is no manifest"
  | program e => e.message

namespace CommandLine

/-- The catalogue of a run: that of a file, or the core one. `read` gives the text of a file. -/
def loadCatalog (read : String → Except FileFault String) (path : Option String) :
    Except RunError Catalog := do
  let manifest ← match path with
    | none => pure Manifest.core
    | some path =>
      match read path with
      | .error fault => throw (.file path fault)
      | .ok text =>
        match Manifest.read? text with
        | none => throw (.manifest path)
        | some manifest => pure manifest
  match Catalog.load manifest with
  | .ok catalog => pure catalog
  | .error e => throw (.program (.catalog e))

/-- What the arguments compile against. -/
def setting (a : Arguments) (catalog : Catalog) : Setting := ⟨catalog, !a.has .noTypeCheck⟩

/-- The session of a run without a file. -/
def session (a : Arguments) (catalog : Catalog) : Session :=
  { setting := setting a catalog, coloured := !a.has .noColor }

/-- What a run on a source text shows, and how it fails: the canonical form of the source if
asked for, the assembly, and the symbol table if asked for. -/
def compileText (a : Arguments) (catalog : Catalog) (source : String) :
    String × Option ProgramError :=
  match Tree.read source with
  | .error e => ("", some (.badSyntax e))
  | .ok t =>
    let tree := if a.has .tree then t.print ++ "\n" else ""
    match Program.compile (setting a catalog) source with
    | .error e => (tree, some e)
    | .ok program =>
      let symbols := if a.has .symbols then program.symbolTable false else ""
      (tree ++ program.assembly ++ symbols, none)

/-- What a run on a file shows, and how it fails. -/
def compileFile (read : String → Except FileFault String) (a : Arguments) (catalog : Catalog)
    (path : String) : String × Option RunError :=
  match read path with
  | .error fault => ("", some (.file path fault))
  | .ok source =>
    let (shown, e) := compileText a catalog source
    (shown, e.map .program)

end CommandLine

end SexprAsm
