import SexprAsm.Resolution

/-!
# Generating code

Code is generated by units of work on an explicit stack, one unit for each node under way. A step
of the unit on top finishes it, asks for another step, or names a child that is to be compiled
first. A unit holds what it needs to go on where it left off: the number of steps it has taken,
the temporaries it has rented, and the jumps that it still has to give a target.
-/

namespace SexprAsm

open Text

/-- What a unit does, and how far it has come. -/
inductive Task where
  | literal
  | get
  | set
  | declare
  | sequence
  /-- The slot of the condition under way, the jump over its branch, and the jumps past the other
  branches. -/
  | conditional (condition : Option String) (pending : Option InstructionId)
      (exits : List InstructionId)
  /-- The last instruction before the loop, the slot of its condition, and the jump past it. -/
  | loop (start : Option InstructionId) (condition : Option String) (exit : Option InstructionId)
  /-- The operation, and the arguments so far. -/
  | call (operation : OperationId) (arguments : List Operand)
  /-- The slot of the value. -/
  | cast (value : Option String)
  /-- The array type, and the slots of the array and of the element under way. -/
  | arrayFill (type : TypeId) (slots : Option (String × String))
  | inlineAsm
  /-- The jump past a block whose value is used. -/
  | event (skip : Option InstructionId)
  | callEvent
  | typeOf (type : TypeId)
  deriving DecidableEq, Repr

/-- The task of a construct, before its first step. -/
def Task.ofConstruct : Construct → Task
  | .literal => .literal
  | .sequence => .sequence
  | .get => .get
  | .set => .set
  | .declare => .declare
  | .conditional => .conditional none none []
  | .loop => .loop none none none
  | .event => .event none
  | .inlineAsm => .inlineAsm
  | .typeOf type => .typeOf type
  | .call operation => .call operation []
  | .cast _ => .cast none
  | .callEvent => .callEvent
  | .arrayFill type => .arrayFill type none

/-- A unit of work: a node, and the slot where its value goes. -/
structure WorkUnit where
  node : NodeId
  target : Option String
  /-- The number of steps taken. -/
  step : Nat := 0
  /-- The temporaries held. -/
  temps : List String := []
  task : Task
  deriving DecidableEq, Repr

/-- The outcome of a step. -/
inductive Progress where
  | done
  | again
  /-- A child is to be compiled first, its value going to a slot. -/
  | descend (child : NodeId) (target : Option String)
  deriving DecidableEq, Repr

/-- An operand of inline assembly that names a slot or an operation. -/
def inlineName (t : Tree) (mnemonic : String) (id : NodeId) : Except BuildError String :=
  match (t.children id).head?.bind fun child => (t.tag child).text? with
  | some name => .ok name
  | none => .error (.missingOperand mnemonic)

/-- An operand of inline assembly that is an address. -/
def inlineAddress (t : Tree) (mnemonic : String) (id : NodeId) : Except BuildError UInt32 :=
  match (t.children id).head? with
  | none => .error (.missingOperand mnemonic)
  | some child =>
    match (t.tag child).address? with
    | some address => .ok address
    | none => .error (.invalidAddress (t.tag child).spelling)

namespace Generation

variable (cfg : Setting) (t : Tree)

/-- An outcome that may be an error. -/
def ofExcept {α : Type} : Except BuildError α → Emit α
  | .ok a => pure a
  | .error e => throw e

/-- Emits one instruction of inline assembly, `mnemonic` or `mnemonic(operand)`. -/
def inlineInstruction (id : NodeId) : Emit Unit := do
  match (t.tag id).text? with
  | none => throw (.unknownMnemonic (t.tag id).spelling)
  | some mnemonic =>
    match asciiLower mnemonic with
    | "nop" => let _ ← Emit.instruction .nop
    | "pop" => let _ ← Emit.instruction .pop
    | "copy" => let _ ← Emit.instruction .copy
    | "push" =>
      let name ← ofExcept (inlineName t mnemonic id)
      let _ ← Emit.push cfg (.var name)
    | "jump" =>
      let address ← ofExcept (inlineAddress t mnemonic id)
      let _ ← Emit.instruction (.jump (.address address))
    | "jumpiffalse" =>
      let address ← ofExcept (inlineAddress t mnemonic id)
      let _ ← Emit.instruction (.jumpIfFalse (.address address))
    | "jumpindirect" =>
      let name ← ofExcept (inlineName t mnemonic id)
      let _ ← Emit.jumpIndirect cfg name
    | "extern" =>
      let name ← ofExcept (inlineName t mnemonic id)
      let _ ← Emit.callPushed cfg name
    | "annotation" => pure ()
    | _ => throw (.unknownMnemonic mnemonic)

/-- Emits inline assembly. -/
def inlineInstructions : List NodeId → Emit Unit
  | [] => pure ()
  | id :: ids => do
    inlineInstruction cfg t id
    inlineInstructions ids

/-- Calls the routine of an event, and copies its result to a slot. -/
def callEvent (label : String) (target : Option String) : Compile Unit := do
  match (← get).entryPoints.get? label with
  | none => throw (.noHandler label)
  | some entry =>
    let pointer := entry.returnPointer
    -- The routine is to return to what comes after the jump.
    let _ ← Compile.emit (Emit.copyOffset cfg pointer (UInt32.ofNat Instruction.jumpSize))
    match entry.bodyStart with
    | some start => let _ ← Compile.emit (Emit.instruction (.jump start))
    | none =>
      -- No block has begun: the jump waits for the first one.
      let jump ← Compile.emit (Emit.instruction (.jump .unresolved))
      modify fun w => { w with
        entryPoints := w.entryPoints.modify label fun entry =>
          { entry with landingPoints := entry.landingPoints ++ [jump] } }
    -- Once back, the next one to start the routine may be the host again.
    let _ ← Compile.emit (Emit.copy cfg (.const (.uint32 returnAddress)) pointer)
    if let some target := target then
      let _ ← Compile.emit (Emit.copy cfg (.var Catalog.returnValue) target)

/-- The variable that a node hands straight to an output parameter, as `$(x)`. -/
def passedVariable? (w : Workspace) (id : NodeId) : Option String :=
  if w.construct? id = some .get then
    (t.children id).head?.bind fun child => (t.tag child).text?
  else none

/-- The child at a place, which a construct needs. -/
def childAt (id : NodeId) (index : Nat) (construct : String) : Compile NodeId :=
  match (t.children id)[index]? with
  | some child => pure child
  | none => throw (.missingChild construct index)

/-- The type of a node, which its use needs. -/
def typeAt (id : NodeId) : Compile TypeId := do
  match (← get).nodeType? id with
  | some type => pure type
  | none => throw (.untyped (t.tag id).spelling)

/-- Gives back the temporaries that a unit holds, in the order in which they were rented. -/
def release (u : WorkUnit) : Compile WorkUnit := do
  modify fun w => u.temps.foldl Workspace.giveBack w
  return { u with temps := [] }

/-- Rents a temporary that a unit holds. -/
def rent (u : WorkUnit) (type : TypeId) : Compile (String × WorkUnit) := do
  let name ← Compile.build (Build.rent cfg type)
  return (name, { u with temps := u.temps ++ [name] })

/-- Gives jumps a target. -/
def patchAll (target : JumpTarget) : List InstructionId → Compile Unit
  | [] => pure ()
  | jump :: jumps => do
    Compile.emit (Emit.patch jump target)
    patchAll target jumps

/-- The last instruction emitted. -/
def lastInstruction : Compile (Option InstructionId) := do return (← get).assembly.last?

/-- Copies an operand to the target of a unit, if it has one. -/
def copyToTarget (u : WorkUnit) (source : Operand) : Compile Unit := do
  if let some target := u.target then
    let _ ← Compile.emit (Emit.copy cfg source target)

/-- A literal is copied to its target, and does nothing without one. -/
def stepLiteral (u : WorkUnit) : Compile (Progress × WorkUnit) := do
  match u.target with
  | some target => let _ ← Compile.emit (Emit.copy cfg (.const (t.tag u.node)) target)
  | none => let _ ← Compile.emit (Emit.instruction .nop)
  return (.done, u)

/-- A variable is copied to the target. -/
def stepGet (u : WorkUnit) : Compile (Progress × WorkUnit) := do
  let name ← Compile.nameAt t (← childAt t u.node 0 Keyword.get) Keyword.get
  if (← Compile.emit (Emit.typeOf? cfg name)).isNone then throw (.undeclaredVariable name)
  copyToTarget cfg u (.var name)
  return (.done, u)

/-- An assignment compiles its right side into the variable. -/
def stepSet (step : Nat) (u : WorkUnit) : Compile (Progress × WorkUnit) := do
  let name ← Compile.nameAt t (← childAt t u.node 0 Keyword.set) Keyword.set
  if step = 0 then return (.descend (← childAt t u.node 1 Keyword.set) (some name), u)
  copyToTarget cfg u (.var name)
  return (.done, ← release u)

/-- A declaration has the value of its variable. -/
def stepDeclare (u : WorkUnit) : Compile (Progress × WorkUnit) := do
  if u.target.isSome then
    let name ← Compile.nameAt t (← childAt t u.node 0 Keyword.declare) Keyword.declare
    copyToTarget cfg u (.var name)
  return (.done, u)

/-- A sequence compiles its items in order, the last one into the target. -/
def stepSequence (step : Nat) (u : WorkUnit) : Compile (Progress × WorkUnit) :=
  let children := t.children u.node
  match children[step]? with
  | some child =>
    pure (.descend child (if step + 1 = children.length then u.target else none), u)
  | none => pure (.done, u)

/-- A conditional compiles condition and branch in turn. -/
def stepConditional (step : Nat) (u : WorkUnit) (condition : Option String)
    (pending : Option InstructionId) (exits : List InstructionId) :
    Compile (Progress × WorkUnit) := do
  let children := t.children u.node
  match children[step]? with
  | none =>
    -- The jumps past the other branches land at the end, and so does the one over the last branch.
    let finish := JumpTarget.after (← lastInstruction)
    patchAll finish exits
    patchAll finish pending.toList
    return (.done, { ← release u with task := .conditional condition none [] })
  | some branch =>
    if step % 2 = 1 then
      match condition with
      | none => throw (.missingChild Keyword.conditional (step - 1))
      | some name =>
        -- Where this jump lands is known when the branch has been compiled.
        let jump ← Compile.emit (Emit.jumpIfFalse cfg name .unresolved)
        let u ← release u
        return (.descend branch u.target, { u with task := .conditional none (some jump) exits })
    else
      let (pending, exits) ←
        if step = 0 then pure (pending, exits)
        else do
          -- The branch before ends with a jump past the rest; the jump over it lands behind that.
          let exit ← Compile.emit (Emit.instruction (.jump .unresolved))
          patchAll (.after (some exit)) pending.toList
          pure (none, exits ++ [exit])
      if step + 1 < children.length then
        let (name, u) ← rent cfg u (← typeAt t branch)
        let task := .conditional (some name) pending exits
        return (.descend branch (some name), { u with task := task })
      else
        return (.descend branch u.target, { u with task := .conditional condition pending exits })

/-- A loop compiles its condition, a jump past the loop, its body, and a jump back. -/
def stepLoop (step : Nat) (u : WorkUnit) (start : Option InstructionId)
    (condition : Option String) (exit : Option InstructionId) :
    Compile (Progress × WorkUnit) := do
  match step with
  | 0 =>
    -- The jump back will go to whatever comes next.
    let start ← lastInstruction
    let test ← childAt t u.node 0 Keyword.loop
    let (name, u) ← rent cfg u (← typeAt t test)
    return (.descend test (some name), { u with task := .loop start (some name) exit })
  | 1 =>
    match condition with
    | none => throw (.missingChild Keyword.loop 0)
    | some name =>
      let jump ← Compile.emit (Emit.jumpIfFalse cfg name .unresolved)
      let body ← childAt t u.node 1 Keyword.loop
      let u ← release u
      return (.descend body u.target, { u with task := .loop start none (some jump) })
  | _ =>
    let back ← Compile.emit (Emit.instruction (.jump (.after start)))
    patchAll (.after (some back)) exit.toList
    return (.done, ← release u)

/-- A call compiles its arguments into temporaries, except variables handed to an output
parameter. -/
def stepCall (step : Nat) (u : WorkUnit) (id : OperationId) (arguments : List Operand) :
    Compile (Progress × WorkUnit) := do
  let op := cfg.catalog.operation id
  match (t.children u.node)[step]? with
  | some argument =>
    let direction := op.parameters[step]?.elim .input (·.direction)
    let w ← get
    -- What an operation writes must reach the variable itself.
    match if direction = .input then none else passedVariable? t w argument with
    | some name => return (.again, { u with task := .call id (arguments ++ [.var name]) })
    | none =>
      let (name, u) ← rent cfg u (← typeAt t argument)
      return (.descend argument (some name), { u with task := .call id (arguments ++ [.var name]) })
  | none =>
    -- The slot for the result is the last argument; without a target, the result is dropped.
    let (arguments, u) ←
      match op.returnType?, u.target with
      | none, _ => pure (arguments, u)
      | some _, some target => pure (arguments ++ [.var target], u)
      | some type, none => do
        let (name, u) ← rent cfg u type
        pure (arguments ++ [.var name], u)
    let _ ← Compile.emit (Emit.call cfg op.fullName arguments)
    return (.done, ← release u)

/-- A cast compiles its value into a temporary of its own type, and copies that to the target. -/
def stepCast (step : Nat) (u : WorkUnit) (value : Option String) :
    Compile (Progress × WorkUnit) := do
  if step = 0 then
    let inner ← childAt t u.node 0 "cast"
    let (name, u) ← rent cfg u (← typeAt t inner)
    return (.descend inner (some name), { u with task := .cast (some name) })
  if let some value := value then copyToTarget cfg u (.var value)
  return (.done, ← release u)

/-- A number of elements as a literal. -/
def countLiteral (n : Nat) : Except BuildError Value :=
  match IntKind.int32.ofInt? n with
  | some bits => .ok (.int .int32 bits)
  | none => .error (.invalidAddress (toString n))

/-- An array fill makes an array in the target and stores one element after the other through a
temporary. -/
def stepArrayFill (step : Nat) (u : WorkUnit) (type : TypeId) (slots : Option (String × String)) :
    Compile (Progress × WorkUnit) := do
  let types := cfg.catalog.types
  let children := t.children u.node
  let (slots, u) ←
    match step, slots with
    | 0, _ => do
      let element := (types.info type).element.getD TypeTable.object
      let (array, u) ←
        match u.target with
        | some target => pure (target, u)
        | none => rent cfg u type
      let (scratch, u) ← rent cfg u element
      let length ← Compile.emit (ofExcept (countLiteral children.length))
      let _ ← Compile.emit (Emit.call cfg Manifest.arrayCreate
        [.const (.typeName (types.name element)), .const length, .var array])
      pure (some (array, scratch), u)
    | n + 1, some (array, scratch) => do
      -- The element that the last step has asked for is in the scratch slot now.
      let index ← Compile.emit (ofExcept (countLiteral n))
      let _ ← Compile.emit (Emit.call cfg Manifest.arraySetValue
        [.var array, .var scratch, .const index])
      pure (slots, u)
    | _, none => pure (slots, u)
  match children[step]?, slots with
  | some element, some (_, scratch) =>
    return (.descend element (some scratch), { u with task := .arrayFill type slots })
  | _, _ => return (.done, ← release u)

/-- Changes the entry point of a label. -/
def modifyEntry (label : String) (f : EntryPoint → EntryPoint) : Compile Unit :=
  modify fun w => { w with entryPoints := w.entryPoints.modify label f }

/-- The entry point of a label. -/
def entryAt (label : String) : Compile EntryPoint := do
  match (← get).entryPoints.get? label with
  | some entry => pure entry
  | none => throw (.noHandler label)

/-- The first block of a label starts its routine, where all its callers land; a later block is
reached by the jump that ends the one before. -/
def beginBlock (label : String) : Compile Unit := do
  let start := JumpTarget.after (← lastInstruction)
  let entry ← entryAt label
  if entry.compiled = 0 then
    -- Until the first block ends, another one inside it is a first block as well.
    modifyEntry label fun entry => { entry with bodyStart := some start, landingPoints := [] }
    Compile.emit (Emit.entryPoint label)
    patchAll start entry.landingPoints
  else
    modifyEntry label fun entry => { entry with chain := none }
    patchAll start entry.chain.toList

/-- The last block of a label returns to the caller; another one jumps on to the next block. -/
def endBlock (label : String) : Compile Unit := do
  let entry ← entryAt label
  let compiled := entry.compiled + 1
  modifyEntry label fun entry => { entry with compiled := compiled }
  if entry.blocks ≤ compiled then
    let _ ← Compile.emit (Emit.jumpIndirect cfg entry.returnPointer)
  else
    let jump ← Compile.emit (Emit.instruction (.jump .unresolved))
    modifyEntry label fun entry => { entry with chain := some jump }

/-- A block of an event. -/
def stepEvent (step : Nat) (u : WorkUnit) (skip : Option InstructionId) :
    Compile (Progress × WorkUnit) := do
  let label ← Compile.nameAt t (← childAt t u.node 0 Keyword.event) Keyword.event
  if step = 0 then
    let skip ←
      match u.target with
      -- Where its value is used, the block is called in place and jumped over.
      | some target => do
        callEvent cfg label (some target)
        let jump ← Compile.emit (Emit.instruction (.jump .unresolved))
        pure (some jump)
      | none => pure none
    beginBlock label
    let body ← childAt t u.node 1 Keyword.event
    return (.descend body (some Catalog.returnValue), { u with task := .event skip })
  endBlock cfg label
  patchAll (.after (← lastInstruction)) skip.toList
  return (.done, u)

/-- One step of a unit. -/
def step (u : WorkUnit) : Compile (Progress × WorkUnit) := do
  let n := u.step
  let u := { u with step := n + 1 }
  match u.task with
  | .literal => stepLiteral cfg t u
  | .get => stepGet cfg t u
  | .set => stepSet cfg t n u
  | .declare => stepDeclare cfg t u
  | .sequence => stepSequence t n u
  | .conditional condition pending exits => stepConditional cfg t n u condition pending exits
  | .loop start condition exit => stepLoop cfg t n u start condition exit
  | .call id arguments => stepCall cfg t n u id arguments
  | .cast value => stepCast cfg t n u value
  | .arrayFill type slots => stepArrayFill cfg t n u type slots
  | .inlineAsm =>
    Compile.emit (inlineInstructions cfg t (t.children u.node))
    return (.done, u)
  | .event skip => stepEvent cfg t n u skip
  | .callEvent =>
    callEvent cfg (← Compile.nameAt t u.node "event call") u.target
    return (.done, u)
  | .typeOf type =>
    copyToTarget cfg u (.const (.typeName (cfg.catalog.types.name type)))
    return (.done, u)

/-- The unit of a node, before its first step. -/
def start (id : NodeId) (target : Option String) : Compile WorkUnit := do
  match (← get).construct? id with
  | some construct => return { node := id, target := target, task := .ofConstruct construct }
  | none => throw (.noHandler (t.tag id).spelling)

/-- Steps the unit on top of the stack until the stack is empty, at most `fuel` times. -/
def run : Nat → List WorkUnit → Compilation Unit
  | 0, _ => pure ()
  | _, [] => pure ()
  | fuel + 1, u :: rest => do
    let (progress, u) ← Compilation.at u.node (step cfg t u)
    match progress with
    | .done => run fuel rest
    | .again => run fuel (u :: rest)
    | .descend child target =>
      -- The unit stays below its child and goes on after it.
      let next ← Compilation.at child (start t child target)
      run fuel (next :: u :: rest)

/-- Enough steps for a tree: the unit of a node takes at most one more than the node has children,
and every node but the root is the child of one. -/
def stepBound : Nat := 2 * t.size

/-- Generates the code of a tree whose nodes have their meaning. -/
def generate : Compilation Unit := do
  let first ← Compilation.at Tree.root (start t Tree.root none)
  run cfg t (stepBound t) [first]

end Generation

end SexprAsm
