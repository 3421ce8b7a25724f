/-!
# Instructions

The instructions of the target machine. They push names of heap slots, copy between slots, jump,
and call operations of the host.
-/

namespace SexprAsm

/-- The number of an instruction in its code. -/
abbrev InstructionId := Nat

/-- Where a jump goes. -/
inductive JumpTarget where
  /-- Not known yet. -/
  | unresolved
  /-- An absolute address. -/
  | address (address : UInt32)
  /-- Right after an instruction, or to the start of the code. -/
  | after (id : Option InstructionId)
  deriving DecidableEq, Repr, Inhabited

/-- An instruction. -/
inductive Instruction where
  | nop
  | pop
  | copy
  | push (name : String)
  | jump (target : JumpTarget)
  | jumpIfFalse (target : JumpTarget)
  | jumpIndirect (name : String)
  | call (operation : String)
  deriving DecidableEq, Repr, Inhabited

namespace Instruction

/-- The number of bytes of an instruction: a word, and a word for its operand. -/
def size : Instruction → Nat
  | nop | pop | copy => 4
  | push _ | jump _ | jumpIfFalse _ | jumpIndirect _ | call _ => 8

/-- The number of bytes of a jump. -/
def jumpSize : Nat := 8

/-- The number of bytes of a copy: two pushes and the copying. -/
def copySize : Nat := 20

/-- A jump with another target; other instructions have none to replace. -/
def retarget? (target : JumpTarget) : Instruction → Option Instruction
  | jump _ => some (jump target)
  | jumpIfFalse _ => some (jumpIfFalse target)
  | _ => none

end Instruction

end SexprAsm
