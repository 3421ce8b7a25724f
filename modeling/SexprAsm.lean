import SexprAsm.Assembly
import SexprAsm.Assembly.Text
import SexprAsm.BuildError
import SexprAsm.Catalog
import SexprAsm.Catalog.Operation
import SexprAsm.Catalog.Overload
import SexprAsm.Catalog.Reference
import SexprAsm.CommandLine
import SexprAsm.CompileError
import SexprAsm.Decimal.Binary
import SexprAsm.Decimal.Shortest
import SexprAsm.Generation
import SexprAsm.Heap
import SexprAsm.Highlight
import SexprAsm.Instruction
import SexprAsm.Json
import SexprAsm.Main
import SexprAsm.Manifest
import SexprAsm.Manifest.Core
import SexprAsm.OrderedMap
import SexprAsm.Position
import SexprAsm.Program
import SexprAsm.Proofs.Assembly.Atomicity
import SexprAsm.Proofs.Assembly.Calls
import SexprAsm.Proofs.Assembly.Changes
import SexprAsm.Proofs.Assembly.Constancy
import SexprAsm.Proofs.Assembly.Edits
import SexprAsm.Proofs.Assembly.Emission
import SexprAsm.Proofs.Assembly.Groups
import SexprAsm.Proofs.Assembly.Integrity
import SexprAsm.Proofs.Assembly.Kinds
import SexprAsm.Proofs.Assembly.Layout
import SexprAsm.Proofs.Assembly.Rendering
import SexprAsm.Proofs.Assembly.Shown
import SexprAsm.Proofs.Assembly.Twins
import SexprAsm.Proofs.Assembly.Unchecked
import SexprAsm.Proofs.Casting
import SexprAsm.Proofs.Catalog
import SexprAsm.Proofs.Catalog.Agreement
import SexprAsm.Proofs.Catalog.Antisymmetry
import SexprAsm.Proofs.Catalog.DeclaredTypes
import SexprAsm.Proofs.Catalog.Index
import SexprAsm.Proofs.Catalog.Loading
import SexprAsm.Proofs.Catalog.Owners
import SexprAsm.Proofs.Catalog.Preference
import SexprAsm.Proofs.Catalog.Sorting
import SexprAsm.Proofs.Catalog.Specificity
import SexprAsm.Proofs.Decimal.Nearest
import SexprAsm.Proofs.Decimal.Rendering
import SexprAsm.Proofs.Decimal.Shortest
import SexprAsm.Proofs.Echoed
import SexprAsm.Proofs.EventBlocks
import SexprAsm.Proofs.Generation.Assignments
import SexprAsm.Proofs.Generation.CastFill
import SexprAsm.Proofs.Generation.Changes
import SexprAsm.Proofs.Generation.Coherence
import SexprAsm.Proofs.Generation.ControlFlow
import SexprAsm.Proofs.Generation.Courses
import SexprAsm.Proofs.Generation.Destinations
import SexprAsm.Proofs.Generation.Events
import SexprAsm.Proofs.Generation.Exports
import SexprAsm.Proofs.Generation.Footprint
import SexprAsm.Proofs.Generation.Literals
import SexprAsm.Proofs.Generation.Merging
import SexprAsm.Proofs.Generation.Once
import SexprAsm.Proofs.Generation.Ownership
import SexprAsm.Proofs.Generation.Preservation
import SexprAsm.Proofs.Generation.Privacy
import SexprAsm.Proofs.Generation.Recursion
import SexprAsm.Proofs.Generation.Renumbering
import SexprAsm.Proofs.Generation.Routines
import SexprAsm.Proofs.Generation.Run
import SexprAsm.Proofs.Generation.Settling
import SexprAsm.Proofs.Generation.Shapes
import SexprAsm.Proofs.Generation.Steady
import SexprAsm.Proofs.Generation.Steps
import SexprAsm.Proofs.Generation.Stores
import SexprAsm.Proofs.Generation.Survival
import SexprAsm.Proofs.Generation.Tidiness
import SexprAsm.Proofs.Generation.Traversal
import SexprAsm.Proofs.Generation.Twins
import SexprAsm.Proofs.Generation.Unchecked
import SexprAsm.Proofs.Generation.Waiting
import SexprAsm.Proofs.Generation.WellFormed
import SexprAsm.Proofs.Heap
import SexprAsm.Proofs.Highlight
import SexprAsm.Proofs.Lockstep
import SexprAsm.Proofs.MadeOf
import SexprAsm.Proofs.OrderedMap
import SexprAsm.Proofs.Outcome
import SexprAsm.Proofs.Position
import SexprAsm.Proofs.Program
import SexprAsm.Proofs.Reader.Acceptance
import SexprAsm.Proofs.Reader.Faults
import SexprAsm.Proofs.Reader.Grammar
import SexprAsm.Proofs.Reader.Items
import SexprAsm.Proofs.Reader.Located
import SexprAsm.Proofs.Reader.Machine
import SexprAsm.Proofs.Reader.Offsets
import SexprAsm.Proofs.Reader.Split
import SexprAsm.Proofs.Resolution
import SexprAsm.Proofs.Resolution.BottomUp
import SexprAsm.Proofs.Resolution.Casting
import SexprAsm.Proofs.Resolution.Changes
import SexprAsm.Proofs.Resolution.Declarations
import SexprAsm.Proofs.Resolution.Pointers
import SexprAsm.Proofs.Resolution.Renumbering
import SexprAsm.Proofs.Resolution.Resolvable
import SexprAsm.Proofs.Resolution.Rule
import SexprAsm.Proofs.Resolution.Visits
import SexprAsm.Proofs.Semantics.Control
import SexprAsm.Proofs.Semantics.Correctness
import SexprAsm.Proofs.Semantics.Evaluation
import SexprAsm.Proofs.Semantics.Machine
import SexprAsm.Proofs.Semantics.Pieces
import SexprAsm.Proofs.Semantics.Simulation
import SexprAsm.Proofs.Semantics.Straight
import SexprAsm.Proofs.Session
import SexprAsm.Proofs.Shown
import SexprAsm.Proofs.Text.Cut
import SexprAsm.Proofs.Text.Digits
import SexprAsm.Proofs.Text.Lines
import SexprAsm.Proofs.Trails
import SexprAsm.Proofs.Tree.Edits
import SexprAsm.Proofs.Tree.Links
import SexprAsm.Proofs.Tree.Printing
import SexprAsm.Proofs.Tree.Sexpr
import SexprAsm.Proofs.TypeChecking
import SexprAsm.Proofs.TypeTable
import SexprAsm.Proofs.TypeTable.Assignability
import SexprAsm.Proofs.TypeTable.CommonAncestor
import SexprAsm.Proofs.TypeTable.Order
import SexprAsm.Proofs.TypeTable.Requests
import SexprAsm.Proofs.Value.Integers
import SexprAsm.Proofs.Value.Numerals
import SexprAsm.Proofs.Value.Spelling
import SexprAsm.Proofs.Workspace
import SexprAsm.Proofs.Workspace.Changes
import SexprAsm.Proofs.Workspace.Renumbering
import SexprAsm.Proofs.Workspace.Requests
import SexprAsm.Proofs.Workspace.Twins
import SexprAsm.Proofs.Wrapping
import SexprAsm.Proofs.Yields
import SexprAsm.Resolution
import SexprAsm.Session
import SexprAsm.Style
import SexprAsm.Text.Blank
import SexprAsm.Text.Case
import SexprAsm.Text.CaseData
import SexprAsm.Text.Cut
import SexprAsm.Text.Quoted
import SexprAsm.Tree
import SexprAsm.Tree.Printer
import SexprAsm.Tree.Reader
import SexprAsm.TypeTable
import SexprAsm.Value
import SexprAsm.Value.Literal
import SexprAsm.Value.Spelling
import SexprAsm.Workspace
