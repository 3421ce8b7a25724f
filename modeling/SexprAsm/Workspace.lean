import SexprAsm.Assembly
import SexprAsm.Tree

/-!
# The workspace of a compilation

What one compilation accumulates beside the assembly: the meaning found for each node, the entry
points of events, and a pool of temporary slots for each type. A temporary is rented and given
back; the one that has been free the longest is rented again first.
-/

namespace SexprAsm

/-- What a node compiles to. -/
inductive Construct where
  | literal
  /-- A list without a tag; the last child is its value. -/
  | sequence
  | get
  | set
  | declare
  | conditional
  | loop
  | event
  | inlineAsm
  | typeOf (type : TypeId)
  | call (operation : OperationId)
  | cast (type : TypeId)
  | callEvent
  | arrayFill (type : TypeId)
  deriving DecidableEq, Repr

/-- What has been found out about a node: its construct, and the type of its value. -/
structure Finding where
  construct : Option Construct := none
  type : Option TypeId := none
  deriving DecidableEq, Repr, Inhabited

/-- The routine of an event label, which all blocks for it share. -/
structure EntryPoint where
  /-- The slot that holds the address to return to. -/
  returnPointer : String
  /-- The blocks declared. -/
  blocks : Nat := 0
  /-- The blocks compiled so far. -/
  compiled : Nat := 0
  /-- Where callers jump to, once the first block has begun. -/
  bodyStart : Option JumpTarget := none
  /-- The jump that ends the previous block and waits for the next one to begin. -/
  chain : Option InstructionId := none
  /-- Jumps of callers that came before the first block. -/
  landingPoints : List InstructionId := []
  deriving DecidableEq, Repr, Inhabited

/-- The temporaries of one type. -/
structure TempPool where
  /-- Those given back, the longest free first. -/
  free : List String := []
  /-- The first number that has not been tried for a name. -/
  serial : Nat := 0
  deriving DecidableEq, Repr, Inhabited

/-- What a compilation accumulates. -/
structure Workspace where
  assembly : Assembly := {}
  findings : Array Finding := #[]
  entryPoints : NameMap EntryPoint := {}
  rented : NameMap TypeId := {}
  pools : OrderedMap TypeId TempPool := {}
  deriving DecidableEq, Repr, Inhabited

namespace Workspace

/-- The workspace for a tree: nothing is known of its nodes. -/
def forTree (t : Tree) : Workspace := { findings := Array.replicate t.size {} }

/-- What has been found out about a node. -/
def finding (w : Workspace) (id : NodeId) : Finding := w.findings.getD id {}

/-- The construct of a node. -/
def construct? (w : Workspace) (id : NodeId) : Option Construct := (w.finding id).construct

/-- The type of a node. -/
def nodeType? (w : Workspace) (id : NodeId) : Option TypeId := (w.finding id).type

/-- Records what has been found out about a node. -/
def record (w : Workspace) (id : NodeId) (finding : Finding) : Workspace :=
  { w with findings := w.findings.setIfInBounds id finding }

/-- Gives a temporary back to its pool; a name that is not rented is ignored. -/
def giveBack (w : Workspace) (name : String) : Workspace :=
  match w.rented.get? name with
  | none => w
  | some type =>
    let pool := (w.pools.get? type).getD {}
    { w with
      rented := w.rented.erase name
      pools := w.pools.put type { pool with free := pool.free ++ [name] } }

end Workspace

/-- Steps that can fail for a reason in the assembly. -/
abbrev Build := EStateM BuildError Workspace

namespace Build

/-- Runs an operation on the assembly. -/
def emit {α : Type} (act : Emit α) : Build α := fun w =>
  match act w.assembly with
  | .ok result assembly => .ok result { w with assembly := assembly }
  | .error e assembly => .error e { w with assembly := assembly }

variable (cfg : Setting)

/-- The first of the names `name n`, `name (n + 1)` and so on that no slot has, and its number;
predefined names are defined on the way. There are `tries` names to look at. -/
def firstFree (name : Nat → String) : Nat → Nat → Build (String × Nat)
  | 0, n => pure (name n, n)
  | tries + 1, n => do
    match ← emit (Emit.typeOf? cfg (name n)) with
    | none => pure (name n, n)
    | some _ => firstFree name tries (n + 1)

/-- More names than can be taken: every taken one is a slot or is predefined. -/
def nameTries : Build Nat := do
  return (← get).assembly.heap.slots.size + cfg.catalog.predefined.size

/-- The slot for the return address of an event, a new one under a free name. -/
def defineReturnPointer (label : String) : Build String := do
  let base := "__" ++ label ++ "_return"
  let name (n : Nat) : String := if n = 0 then base else Heap.numbered base (n - 1)
  let (name, _) ← firstFree cfg name (← nameTries cfg) 0
  let type := cfg.catalog.types.builtin TypeTable.uint32Name
  emit (Emit.define cfg name (some type) {} (some (.uint32 returnAddress)))
  return name

/-- Declares one more block for an event label. -/
def declareEntryPoint (label : String) : Build EntryPoint := do
  let entry ← match (← get).entryPoints.get? label with
    | some entry => pure entry
    | none => do
      let returnPointer ← defineReturnPointer cfg label
      pure { returnPointer := returnPointer }
  let entry := { entry with blocks := entry.blocks + 1 }
  modify fun w => { w with entryPoints := w.entryPoints.put label entry }
  return entry

/-- Rents a temporary of a type, a free one if there is any. -/
def rent (type : TypeId) : Build String := do
  let pool := ((← get).pools.get? type).getD {}
  match pool.free with
  | name :: free =>
    modify fun w => { w with
      pools := w.pools.put type { pool with free := free }
      rented := w.rented.put name type }
    return name
  | [] =>
    -- The serial number only ever grows, so no taken name is looked at again.
    let base := "__temp_" ++ cfg.catalog.types.name type
    let (name, serial) ← firstFree cfg (Heap.numbered base) (← nameTries cfg) pool.serial
    modify fun w => { w with pools := w.pools.put type { pool with serial := serial + 1 } }
    emit (Emit.define cfg name (some type) {} none)
    modify fun w => { w with rented := w.rented.put name type }
    return name

end Build

end SexprAsm
