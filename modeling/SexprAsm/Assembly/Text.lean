import SexprAsm.Assembly

/-!
# The text of an assembly

Two sections: the declarations of the heap, and one mnemonic on a line for each instruction.
-/

namespace SexprAsm

/-- An entry of the table with which the host fills the heap. -/
structure Symbol where
  type : String
  attributes : Attributes
  value : Option Value
  deriving DecidableEq, Repr

/-- The way a slot is kept in step with other copies of the program, if there is exactly one. -/
def Attributes.syncMode? (attributes : Attributes) : Option String :=
  match attributes.syncNone, attributes.syncLinear, attributes.syncSmooth with
  | true, false, false => some "none"
  | false, true, false => some "linear"
  | false, false, true => some "smooth"
  | _, _, _ => none

namespace Assembly

/-- The address of a jump that stands at byte `offset`. -/
def addressOf (a : Assembly) (offset : Nat) : JumpTarget → Except BuildError Nat
  | .unresolved => .error (.unresolvedJump offset)
  | .address address => .ok address.toNat
  | .after none => .ok 0
  | .after (some id) =>
    match a.lines[id]? with
    | some line => .ok line.finish
    | none => .error (.notAJump id)

/-- The text of an instruction. -/
def renderInstruction (a : Assembly) (offset : Nat) : Instruction → Except BuildError String
  | .nop => .ok "NOP"
  | .pop => .ok "POP"
  | .copy => .ok "COPY"
  | .push name => .ok ("PUSH, " ++ name)
  | .jump target => do return "JUMP, 0x" ++ hex8 (← a.addressOf offset target)
  | .jumpIfFalse target => do return "JUMP_IF_FALSE, 0x" ++ hex8 (← a.addressOf offset target)
  | .jumpIndirect name => .ok ("JUMP_INDIRECT, " ++ name)
  | .call name => .ok ("EXTERN, \"" ++ name ++ "\"")

/-- The lines that export a slot and say how it is kept in step. -/
def exportLines (name : String) (attributes : Attributes) : List String :=
  (if attributes.exported then [".export " ++ name] else []) ++
    (attributes.syncMode?.map fun mode => ".sync " ++ name ++ ", " ++ mode).toList

/-- The line that declares a slot. -/
def declarationLine (types : TypeTable) (name : String) (v : Variable) : String :=
  let start := if v.attributes.defaultThis then "this" else "null"
  name ++ ": %" ++ types.name v.type ++ ", " ++ start

/-- The lines of the heap section. -/
def dataLines (types : TypeTable) (a : Assembly) : List String :=
  a.heap.slots.entries.flatMap (fun (name, v) => exportLines name v.attributes) ++
    a.heap.slots.entries.map fun (name, v) => declarationLine types name v

/-- The lines of an instruction, with its entry point. -/
def codeLines (a : Assembly) (line : Line) : Except BuildError (List String) := do
  let text ← a.renderInstruction line.offset line.instruction
  return (line.label.elim [] fun label => [".export " ++ label, label ++ ":"]) ++ [text]

/-- The text of an assembly; every jump must have a target. -/
def text (types : TypeTable) (a : Assembly) : Except BuildError String := do
  let code ← a.lines.toList.mapM a.codeLines
  let lines := [".data_start"] ++ dataLines types a ++ [".data_end", ".code_start"] ++
    code.flatten ++ [".code_end"]
  return String.join (lines.map (· ++ "\n"))

/-- The initial contents of the heap, without the slots of the type without values and those
that start with the object the program belongs to. -/
def symbols (types : TypeTable) (a : Assembly) : List (String × Symbol) :=
  a.heap.slots.entries.filterMap fun (name, v) =>
    if v.attributes.defaultThis || v.type == TypeTable.void then none
    else some (name, ⟨types.name v.type, v.attributes, v.value⟩)

end Assembly

end SexprAsm
