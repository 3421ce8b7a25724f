import SexprAsm.Proofs.Assembly.Edits

/-!
# What emitting changes

Emitting changes code, defines a slot that was missing, or makes the slot of a literal that had
none (`Assembly.Change`): edits, seen from the heap. Both kinds of slots are defined under names
that are free, so slots and literals stay as they are. All operations but an outright definition
do nothing else, not even where they fail.
-/

namespace SexprAsm

open Relation

/-- A single change of an assembly by emitting. -/
inductive Assembly.Change (c : Catalog) : Assembly → Assembly → Prop where
  | code {a a' : Assembly} (heap : a'.heap = a.heap) : Change c a a'
  /-- A slot that has been missing. -/
  | slot {a : Assembly} {heap : Heap} {name : String} {type : Option TypeId}
      (fresh : a.heap.slots.get? name = none)
      (define : a.heap.define c name type {} none = .ok heap) :
      Change c a { a with heap := heap }
  /-- The slot of a literal that has had none. -/
  | literal {a : Assembly} {heap : Heap} {name : String} {value : Value}
      (unknown : a.heap.constants.get? value = none)
      (fresh : a.heap.slots.get? name = none)
      (lead : Heap.constantLead.toList <+: name.toList)
      (define : a.heap.define c name (some (c.types.constantType value)) { constant := true }
        (if value.isNull then none else some value) = .ok heap) :
      Change c a { a with heap := heap }

/-- Slots and literals stay as they are. -/
theorem Assembly.Change.extends {c : Catalog} {a a' : Assembly} (h : Change c a a') :
    a.heap.Extends a'.heap := by
  cases h with
  | code heap => rw [heap]; exact .refl _
  | slot fresh define => exact (Heap.define_fresh define fresh).1
  | literal unknown fresh lead define => exact (Heap.define_fresh define fresh).1

theorem Assembly.extends_of_changes {c : Catalog} {a a' : Assembly}
    (h : ReflTransGen (Change c) a a') : a.heap.Extends a'.heap := by
  induction h with
  | refl => exact .refl _
  | tail _ hchange ih => exact ih.trans hchange.extends

/-- An edit of the code leaves the heap alone. -/
theorem Assembly.Edit.change {c : Catalog} {a a' : Assembly} (h : Edit c a a') :
    Change c a a' := by
  cases h with
  | slot fresh define => exact .slot fresh define
  | literal unknown fresh lead define => exact .literal unknown fresh lead define
  | append => exact .code rfl
  | called => exact .code rfl
  | entryPoint => exact .code rfl
  | retarget => exact .code rfl

theorem MadeOf.changes {α : Type} {c : Catalog} {act : Emit α} {a : Assembly}
    (h : MadeOf (Assembly.Edit c) act a) : MadeOf (Assembly.Change c) act a :=
  h.mono fun _ _ => Assembly.Edit.change

namespace Emit

open Assembly (Change)

variable {cfg : Setting} {a : Assembly} {name : String}

/-- Here any instruction may be appended, also one that names a slot that is not there. -/
theorem instruction_changes (i : Instruction) :
    MadeOf (Change cfg.catalog) (Emit.instruction i) a := by
  refine .bind .get fun before a' hget => ?_
  obtain ⟨rfl, rfl⟩ := Yields.get_iff.mp hget
  exact .bind (.set (.code rfl)) fun _ _ _ => .pure _

theorem entryPoint_changes (label : String) :
    MadeOf (Change cfg.catalog) (Emit.entryPoint label) a :=
  (entryPoint_edits label).changes

theorem patch_changes (id : InstructionId) (target : JumpTarget) :
    MadeOf (Change cfg.catalog) (Emit.patch id target) a :=
  (patch_edits id target).changes

theorem typeOf?_changes (name : String) :
    MadeOf (Change cfg.catalog) (Emit.typeOf? cfg name) a :=
  (typeOf?_edits name).changes

theorem define_changes {type : Option TypeId} (hfresh : a.heap.slots.get? name = none) :
    MadeOf (Change cfg.catalog) (Emit.define cfg name type {} none) a :=
  (define_edits hfresh).changes

theorem constant_changes (value : Value) :
    MadeOf (Change cfg.catalog) (Emit.constant cfg value) a :=
  (constant_edits value).changes

theorem push_changes (operand : Operand) : MadeOf (Change cfg.catalog) (Emit.push cfg operand) a :=
  (push_edits operand).changes

theorem copy_changes (source : Operand) (target : String) :
    MadeOf (Change cfg.catalog) (Emit.copy cfg source target) a :=
  (copy_edits source target).changes

theorem copyOffset_changes (target : String) (relative : UInt32) :
    MadeOf (Change cfg.catalog) (Emit.copyOffset cfg target relative) a :=
  (copyOffset_edits target relative).changes

theorem jumpIfFalse_changes (condition : String) (target : JumpTarget) :
    MadeOf (Change cfg.catalog) (Emit.jumpIfFalse cfg condition target) a :=
  (jumpIfFalse_edits condition target).changes

theorem jumpIndirect_changes (address : String) :
    MadeOf (Change cfg.catalog) (Emit.jumpIndirect cfg address) a :=
  (jumpIndirect_edits address).changes

theorem callPushed_changes (name : String) :
    MadeOf (Change cfg.catalog) (Emit.callPushed cfg name) a :=
  (callPushed_edits name).changes

theorem call_changes (name : String) (operands : List Operand) :
    MadeOf (Change cfg.catalog) (Emit.call cfg name operands) a :=
  (call_edits name operands).changes

end Emit

end SexprAsm
