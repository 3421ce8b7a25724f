import SexprAsm.Heap
import SexprAsm.Instruction

/-!
# Assemblies

Code under construction, with the heap it refers to. Instructions are only ever appended; a jump
whose target is not known yet is given one later. An operation that fails keeps what it has done
before: slots defined and instructions emitted stay.
-/

namespace SexprAsm

/-- What code is compiled against. -/
structure Setting where
  catalog : Catalog
  /-- Types of variables and of arguments are checked. -/
  typeCheck : Bool := true
  deriving Repr, Inhabited

/-- A source of a pushed value: a variable, or a literal that lives in a constant slot. -/
inductive Operand where
  | var (name : String)
  | const (value : Value)
  deriving DecidableEq, Repr

/-- An instruction in its place. -/
structure Line where
  /-- The number of bytes before it. A program counts them in 32 bits, which comes to the same as long
  as the code stays below 2^32 bytes. -/
  offset : Nat
  /-- The entry point that starts here. -/
  label : Option String
  instruction : Instruction
  deriving DecidableEq, Repr, Inhabited

/-- The number of bytes up to the end of a line. -/
def Line.finish (l : Line) : Nat := l.offset + l.instruction.size

/-- Code and heap. -/
structure Assembly where
  heap : Heap := {}
  lines : Array Line := #[]
  /-- The entry point that the next instruction starts. -/
  pendingLabel : Option String := none
  /-- The operations called, each once. -/
  called : List String := []
  deriving DecidableEq, Repr, Inhabited

/-- The address that stands for the host as the place to return to. -/
def returnAddress : UInt32 := 0xFFFFFFF8

/-- Operations on an assembly. -/
abbrev Emit := EStateM BuildError Assembly

namespace Assembly

/-- The number of bytes of the code, a 32-bit number in a program: the two agree as long as the code
stays below 2^32 bytes. -/
def size (a : Assembly) : Nat := a.lines.back?.elim 0 Line.finish

/-- The last instruction. -/
def last? (a : Assembly) : Option InstructionId :=
  if a.lines.isEmpty then none else some (a.lines.size - 1)

/-- The instruction of a number. -/
def instruction? (a : Assembly) (id : InstructionId) : Option Instruction :=
  a.lines[id]?.map (·.instruction)

/-- The offset of an instruction. -/
def offset? (a : Assembly) (id : InstructionId) : Option Nat := a.lines[id]?.map (·.offset)

/-- The instructions, in order. -/
def instructions (a : Assembly) : List Instruction := a.lines.toList.map (·.instruction)

/-- The entry points, in the order of the code. -/
def entryLabels (a : Assembly) : List String := a.lines.toList.filterMap (·.label)

/-- The slots that the program needs: one for each variable and one for each operation called. -/
def heapSize (a : Assembly) : Nat := a.heap.slots.size + a.called.length

/-- Appends an instruction; a pending entry point starts at it. -/
def append (a : Assembly) (instruction : Instruction) : Assembly :=
  { a with
    lines := a.lines.push ⟨a.size, a.pendingLabel, instruction⟩
    pendingLabel := none }

end Assembly

namespace Emit

/-- Runs an operation on the heap. -/
def onHeap {α : Type} (act : Heap → Except BuildError (α × Heap)) : Emit α := fun a =>
  match act a.heap with
  | .ok (result, heap) => .ok result { a with heap := heap }
  | .error e => .error e a

/-- Emits an instruction. -/
def instruction (i : Instruction) : Emit InstructionId := do
  let a ← get
  set (a.append i)
  return a.lines.size

/-- The next instruction starts an entry point. -/
def entryPoint (label : String) : Emit Unit := modify fun a => { a with pendingLabel := some label }

/-- Gives a jump another target. -/
def patch (id : InstructionId) (target : JumpTarget) : Emit Unit := do
  let a ← get
  match (a.instruction? id).bind (Instruction.retarget? target) with
  | some i => set { a with lines := a.lines.modify id fun l => { l with instruction := i } }
  | none => throw (.notAJump id)

variable (cfg : Setting)

/-- Defines a slot. -/
def define (name : String) (type : Option TypeId) (attributes : Attributes)
    (value : Option Value) : Emit Unit :=
  onHeap fun heap => (heap.define cfg.catalog name type attributes value).map ((), ·)

/-- The type of a slot; a predefined name is defined on first use. -/
def typeOf? (name : String) : Emit (Option TypeId) := onHeap (Heap.typeOf? cfg.catalog · name)

/-- The slot of a literal. -/
def constant (value : Value) : Emit String := onHeap (Heap.constant cfg.catalog · value)

/-- The slot of an operand. -/
def slot : Operand → Emit String
  | .var name => pure name
  | .const value => constant cfg value

/-- Checks a slot against an expected type, exactly or up to compatibility; a slot that is not
there yet is defined with that type. -/
def checkSlot (name : String) (expected : Option TypeId) (exact : Bool) : Emit Unit := do
  if name.isEmpty then throw .invalidVariableName
  let types := cfg.catalog.types
  match ← typeOf? cfg name with
  | none => define cfg name expected {} none
  | some actual =>
    match expected with
    | none => pure ()
    | some expected =>
      let agrees := if exact then actual == expected else types.isCompatible actual expected
      if cfg.typeCheck && !agrees then
        throw (.typeMismatch name (types.name expected) (types.name actual))

/-- Pushes a slot after checking it. -/
def pushSlot (name : String) (expected : Option TypeId) (exact : Bool) : Emit InstructionId := do
  checkSlot cfg name expected exact
  instruction (.push name)

/-- Pushes an operand. -/
def push (operand : Operand) : Emit InstructionId := do
  let name ← slot cfg operand
  pushSlot cfg name none false

/-- Copies an operand to a slot, whose type is checked against that of the operand. -/
def copy (source : Operand) (target : String) : Emit InstructionId := do
  let source ← slot cfg source
  let _ ← pushSlot cfg source none false
  let type := ((← get).heap.slots.get? source).elim TypeTable.object (·.type)
  let _ ← pushSlot cfg target (some type) false
  instruction .copy

/-- Stores in a slot the address `relative` bytes past the end of the copy that does so. -/
def copyOffset (target : String) (relative : UInt32) : Emit InstructionId := do
  if !(← get).heap.slots.contains target then
    define cfg target (some (cfg.catalog.types.builtin TypeTable.uint32Name)) {} none
  let size := (← get).size
  -- Literals take no code, so the copy is what is emitted next.
  let address := Instruction.copySize + size + relative.toNat
  if address < UInt32.size then copy cfg (.const (.uint32 (UInt32.ofNat address))) target
  else throw (.invalidAddress s!"{size} + {relative}")

/-- Jumps if a slot, which must be a condition, holds false. -/
def jumpIfFalse (condition : String) (target : JumpTarget) : Emit InstructionId := do
  let _ ← pushSlot cfg condition (some (cfg.catalog.types.builtin TypeTable.booleanName)) true
  instruction (.jumpIfFalse target)

/-- Jumps to the address that a slot holds. -/
def jumpIndirect (address : String) : Emit InstructionId := do
  checkSlot cfg address (some (cfg.catalog.types.builtin TypeTable.uint32Name)) true
  instruction (.jumpIndirect address)

/-- Calls an operation on the slots that are already pushed. -/
def callPushed (name : String) : Emit InstructionId := do
  if name.isEmpty || (cfg.typeCheck && (cfg.catalog.operationNamed? name).isNone) then
    throw (.unknownOperation name)
  modify fun a => { a with called := if name ∈ a.called then a.called else a.called ++ [name] }
  instruction (.call name)

/-- An argument slot fits a parameter: a constant only for an input, and by type. -/
def checkArgument (name : String) (index : Nat) (argument : String) (v : Variable)
    (parameter : Parameter) : Except BuildError Unit :=
  let types := cfg.catalog.types
  let accepted :=
    match parameter.direction with
    | .input => types.accepts parameter.type v.type
    | .output => types.isCompatible parameter.type v.type
    | .both => parameter.type == v.type
  if v.attributes.constant && parameter.direction != .input then
    .error (.constantOutput name index parameter.direction argument)
  else if !accepted then
    .error (.parameterType name index (types.name parameter.type) (types.name v.type))
  else .ok ()

/-- Checks argument slots against the parameters of an operation, counting from `index`; a slot
that is not there yet is defined with the type of its parameter. -/
def checkArguments (name : String) : Nat → List (String × Parameter) → Emit Unit
  | _, [] => pure ()
  | index, (argument, parameter) :: rest => do
    match (← get).heap.slots.get? argument with
    | none => define cfg argument (some parameter.type) {} none
    | some v =>
      match checkArgument cfg name index argument v parameter with
      | .ok () => pure ()
      | .error e => throw e
    checkArguments name (index + 1) rest

/-- Checks a call: the operation exists, and its parameters fit the arguments. -/
def checkCall (name : String) (arguments : List String) : Emit Unit := do
  match cfg.catalog.operationNamed? name with
  | none => throw (.unknownOperation name)
  | some operation =>
    if operation.parameters.length ≠ arguments.length then
      throw (.parameterCount name operation.parameters.length arguments.length)
    checkArguments cfg name 0 (arguments.zip operation.parameters)

/-- The slots of operands, in order. -/
def slots : List Operand → Emit (List String)
  | [] => pure []
  | operand :: operands => do
    let name ← slot cfg operand
    let names ← slots operands
    return name :: names

/-- Pushes slots in order. -/
def pushAll : List String → Emit Unit
  | [] => pure ()
  | name :: names => do
    let _ ← pushSlot cfg name none false
    pushAll names

/-- Pushes every argument, the slot for the result included, and calls the operation. -/
def call (name : String) (operands : List Operand) : Emit InstructionId := do
  let arguments ← slots cfg operands
  -- Slots are found first: the checks need their types.
  if cfg.typeCheck then checkCall cfg name arguments
  pushAll cfg arguments
  callPushed cfg name

end Emit

end SexprAsm
