import SexprAsm.BuildError
import SexprAsm.Workspace

/-!
# Errors of a compilation

A fault of the program, at the node that has it, and at its place in the source once that is known.
-/

namespace SexprAsm

/-- Why a node does not compile. -/
inductive CompileFault where
  | noHandler (tag : String)
  | untyped (tag : String)
  | missingChild (construct : String) (index : Nat)
  | undeclaredVariable (name : String)
  | unknownType (name : String)
  | invalidName (construct found : String)
  | unsupportedDefault (name : String)
  | build (e : BuildError)
  deriving DecidableEq, Repr

/-- The wording of a fault. -/
def CompileFault.message : CompileFault → String
  | noHandler tag => s!"no matching handler or overload for `{tag}`"
  | untyped tag => s!"`{tag}` has no resolved type"
  | missingChild construct index => s!"`{construct}` is missing child {index}"
  | undeclaredVariable name => s!"variable `{name}` is not declared"
  | unknownType name => s!"unknown type `{name}`"
  | invalidName construct found => s!"`{construct}` expects a name but got `{found}`"
  | unsupportedDefault name => s!"unsupported default value for `{name}`"
  | build e => e.message

/-- A fault with its node and its position. -/
structure CompileError where
  fault : CompileFault
  node : Option NodeId := none
  position : Option Position := none
  deriving DecidableEq, Repr

namespace CompileError

/-- The wording of an error. -/
def message (e : CompileError) : String :=
  e.fault.message ++ (e.position.elim "" fun p => " at " ++ p.describe)

/-- Adds the position of the node in the source of the tree. -/
def locate (e : CompileError) (t : Tree) (source : String) : CompileError :=
  match e.node with
  | some node => { e with position := t.position? source node }
  | none => e

end CompileError

/-- Steps of a compilation at some node. -/
abbrev Compile := EStateM CompileFault Workspace

/-- A compilation. -/
abbrev Compilation := EStateM CompileError Workspace

/-- Runs a step that builds. -/
def Compile.build {α : Type} (act : Build α) : Compile α := act.adaptExcept .build

/-- Runs an operation on the assembly. -/
def Compile.emit {α : Type} (act : Emit α) : Compile α := .build (Build.emit act)

/-- Runs a step at a node, which is to blame for its fault. -/
def Compilation.at {α : Type} (node : NodeId) (act : Compile α) : Compilation α :=
  act.adaptExcept fun fault => { fault := fault, node := some node }

/-- The name in the tag of a node, as a part of a construct. -/
def Compile.nameAt (t : Tree) (id : NodeId) (construct : String) : Compile String :=
  match (t.tag id).text? with
  | some name =>
    if name.isEmpty then throw (.invalidName construct (t.tag id).spelling) else pure name
  | none => throw (.invalidName construct (t.tag id).spelling)

end SexprAsm
