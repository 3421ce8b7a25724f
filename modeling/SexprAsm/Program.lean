import SexprAsm.Assembly.Text
import SexprAsm.Generation
import SexprAsm.Tree.Printer
import SexprAsm.Tree.Reader

/-!
# Programs

A source text compiled against a catalogue: the text of its assembly and what the host needs to
load it.
-/

namespace SexprAsm

/-- A compiled program. -/
structure Program where
  assembly : String
  symbols : List (String × Symbol)
  heapSize : Nat
  /-- The entry points, in the order of the code. -/
  entryPoints : List String
  deriving DecidableEq, Repr

/-- Why a source text does not become a program. -/
inductive ProgramError where
  | badSyntax (e : SyntaxError)
  | compile (e : CompileError)
  | catalog (e : CatalogError)
  deriving DecidableEq, Repr

/-- The wording of an error. -/
def ProgramError.message : ProgramError → String
  | badSyntax e => e.message
  | compile e => e.message
  | catalog e => e.message

namespace Program

/-- The program of a finished assembly. -/
def ofAssembly (types : TypeTable) (a : Assembly) : Except CompileError Program :=
  match a.text types with
  | .error e => .error { fault := .build e }
  | .ok text =>
    .ok
      { assembly := text
        symbols := a.symbols types
        heapSize := a.heapSize
        entryPoints := a.entryLabels }

/-- Finds the meaning of a tree. -/
def resolved (cfg : Setting) (t : Tree) : Except CompileError Workspace :=
  match (Resolution.resolve cfg t).run (.forTree t) with
  | .ok _ w => .ok w
  | .error e _ => .error e

/-- Generates the code of a tree. -/
def generated (cfg : Setting) (t : Tree) : Except CompileError Workspace := do
  match (Generation.generate cfg t).run (← resolved cfg t) with
  | .ok _ w => .ok w
  | .error e _ => .error e

/-- Compiles a tree; errors tell the node but not its position. -/
def ofTree (cfg : Setting) (t : Tree) : Except CompileError Program := do
  let w ← generated cfg t
  ofAssembly cfg.catalog.types w.assembly

/-- Reads and compiles a source text. -/
def compile (cfg : Setting) (source : String) : Except ProgramError Program :=
  match Tree.read source with
  | .error e => .error (.badSyntax e)
  | .ok t =>
    match ofTree cfg t with
    | .error e => .error (.compile (e.locate t source))
    | .ok program => .ok program

end Program

end SexprAsm
