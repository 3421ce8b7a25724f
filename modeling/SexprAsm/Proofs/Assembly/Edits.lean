import SexprAsm.Proofs.Assembly.Emission
import SexprAsm.Proofs.MadeOf

/-!
# The edits of an assembly

All that an operation on an assembly does, an outright definition and a bare instruction apart, is
a chain of edits (`Assembly.Edit`), also if it fails on the way: a slot or a literal gets a free
name, an operation is noted as called, an instruction is appended, the next one becomes an entry
point, a jump gets another target. An instruction is appended only when the names it uses are
there (`Assembly.Knows`).
-/

namespace SexprAsm

open Relation

/-- The slot or the operation that an instruction names. -/
def Instruction.name? : Instruction → Option String
  | push name | jumpIndirect name | call name => some name
  | nop | pop | copy | jump _ | jumpIfFalse _ => none

/-- The names that an instruction uses are there: the slot pushed or jumped through, the operation
called. -/
def Assembly.Knows (a : Assembly) : Instruction → Prop
  | .push name | .jumpIndirect name => a.heap.slots.contains name = true
  | .call name => name ∈ a.called
  | .nop | .pop | .copy | .jump _ | .jumpIfFalse _ => True

theorem Assembly.knows_of_name? {i : Instruction} (h : i.name? = none) (a : Assembly) :
    a.Knows i := by
  cases i with
  | push name => cases h
  | jumpIndirect name => cases h
  | call name => cases h
  | _ => trivial

/-- A single edit of an assembly. -/
inductive Assembly.Edit (c : Catalog) : Assembly → Assembly → Prop where
  /-- A slot that has been missing. -/
  | slot {a : Assembly} {heap : Heap} {name : String} {type : Option TypeId}
      (fresh : a.heap.slots.get? name = none)
      (define : a.heap.define c name type {} none = .ok heap) :
      Edit c a { a with heap := heap }
  /-- The slot of a literal that has had none. -/
  | literal {a : Assembly} {heap : Heap} {name : String} {value : Value}
      (unknown : a.heap.constants.get? value = none)
      (fresh : a.heap.slots.get? name = none)
      (lead : Heap.constantLead.toList <+: name.toList)
      (define : a.heap.define c name (some (c.types.constantType value)) { constant := true }
        (if value.isNull then none else some value) = .ok heap) :
      Edit c a { a with heap := heap }
  | append {a : Assembly} {i : Instruction} (known : a.Knows i) : Edit c a (a.append i)
  | called {a : Assembly} (name : String) :
      Edit c a { a with called := if name ∈ a.called then a.called else a.called ++ [name] }
  | entryPoint {a : Assembly} (label : String) : Edit c a { a with pendingLabel := some label }
  | retarget {a : Assembly} {id : InstructionId} {target : JumpTarget} {i i' : Instruction}
      (found : a.instruction? id = some i) (jump : i.retarget? target = some i') :
      Edit c a { a with lines := a.lines.modify id fun l => { l with instruction := i' } }

namespace Emit

open Assembly (Edit)

variable {cfg : Setting} {a : Assembly} {name : String}

/-! ## Single operations -/

theorem instruction_edits {i : Instruction} (h : a.Knows i) :
    MadeOf (Edit cfg.catalog) (Emit.instruction i) a := by
  refine .bind .get fun before a' hget => ?_
  obtain ⟨rfl, rfl⟩ := Yields.get_iff.mp hget
  exact .bind (.set (.append h)) fun _ _ _ => .pure _

theorem entryPoint_edits (label : String) :
    MadeOf (Edit cfg.catalog) (Emit.entryPoint label) a :=
  .modify (.entryPoint label)

theorem patch_edits (id : InstructionId) (target : JumpTarget) :
    MadeOf (Edit cfg.catalog) (Emit.patch id target) a := by
  refine .bind .get fun before a' hget => ?_
  obtain ⟨rfl, rfl⟩ := Yields.get_iff.mp hget
  split
  next i' hi =>
    obtain ⟨i, hfound, hjump⟩ := Option.bind_eq_some_iff.mp hi
    exact .set (.retarget hfound hjump)
  next => exact .throw _

theorem typeOf?_edits (name : String) :
    MadeOf (Edit cfg.catalog) (Emit.typeOf? cfg name) a := by
  refine .onHeap fun found heap h => ?_
  rcases (Heap.typeOf?_ok h).2 with ⟨rfl, -⟩ | ⟨hnone, pinned, -, hdefine⟩
  · exact .refl
  · exact .single (.slot hnone hdefine)

/-- A slot that is missing is defined. -/
theorem define_edits {type : Option TypeId} (hfresh : a.heap.slots.get? name = none) :
    MadeOf (Edit cfg.catalog) (Emit.define cfg name type {} none) a :=
  .define fun _ hdefine => .slot hfresh hdefine

theorem constant_edits (value : Value) :
    MadeOf (Edit cfg.catalog) (Emit.constant cfg value) a := by
  refine .onHeap fun name heap h => ?_
  cases hknown : a.heap.constants.get? value with
  | some known =>
    simp only [Heap.constant, hknown, Except.ok.injEq, Prod.mk.injEq] at h
    obtain ⟨-, rfl⟩ := h
    exact .refl
  | none =>
    rcases Heap.constant_ok h with ⟨hfound, -⟩ | ⟨hfree, hlead, hdefine⟩
    · rw [hknown] at hfound
      cases hfound
    · exact .single (.literal hknown hfree hlead hdefine)

theorem slot_edits (operand : Operand) :
    MadeOf (Edit cfg.catalog) (Emit.slot cfg operand) a := by
  cases operand with
  | var name => exact .pure _
  | const value => exact constant_edits value

theorem slots_edits (operands : List Operand) :
    MadeOf (Edit cfg.catalog) (Emit.slots cfg operands) a := by
  induction operands generalizing a with
  | nil => exact .pure _
  | cons operand operands ih =>
    exact .bind (slot_edits operand) fun _ _ _ => .bind ih fun _ _ _ => .pure _

/-! ## Groups -/

theorem checkSlot_edits (name : String) (expected : Option TypeId) (exact : Bool) :
    MadeOf (Edit cfg.catalog) (Emit.checkSlot cfg name expected exact) a := by
  unfold Emit.checkSlot
  dsimp only
  split
  · exact .throw_bind _ _
  · refine .bind (typeOf?_edits name) fun found a' hfound => ?_
    cases found with
    | none =>
      obtain ⟨heap, hheap, rfl⟩ := Emit.onHeap_iff.mp hfound
      obtain ⟨rfl, hfresh, -⟩ := Heap.typeOf?_none hheap
      exact define_edits hfresh
    | some actual =>
      cases expected with
      | none => exact .pure _
      | some expected => exact .check _ _ _

/-- A slot that has been checked is there, so an instruction may name it. -/
theorem contains_of_checkSlot {expected : Option TypeId} {exact : Bool} {a' : Assembly}
    (h : Yields (Emit.checkSlot cfg name expected exact) a () a') :
    a'.heap.slots.contains name = true := by
  obtain ⟨-, v, hv, -⟩ := checkSlot_spec h
  exact OrderedMap.contains_iff.mpr ⟨v, hv⟩

theorem pushSlot_edits (name : String) (expected : Option TypeId) (exact : Bool) :
    MadeOf (Edit cfg.catalog) (Emit.pushSlot cfg name expected exact) a :=
  .bind (checkSlot_edits name expected exact) fun _ _ hcheck =>
    instruction_edits (contains_of_checkSlot hcheck)

theorem push_edits (operand : Operand) : MadeOf (Edit cfg.catalog) (Emit.push cfg operand) a :=
  .bind (slot_edits operand) fun _ _ _ => pushSlot_edits _ _ _

theorem copy_edits (source : Operand) (target : String) :
    MadeOf (Edit cfg.catalog) (Emit.copy cfg source target) a :=
  .bind (slot_edits source) fun _ _ _ => .bind (pushSlot_edits _ _ _) fun _ _ _ =>
    .bind .get fun _ _ _ => .bind (pushSlot_edits _ _ _) fun _ _ _ => instruction_edits trivial

theorem copyOffset_edits (target : String) (relative : UInt32) :
    MadeOf (Edit cfg.catalog) (Emit.copyOffset cfg target relative) a := by
  have hcopy : ∀ {a : Assembly}, MadeOf (Edit cfg.catalog) (do
      let size := (← get).size
      let address := Instruction.copySize + size + relative.toNat
      if address < UInt32.size then
        Emit.copy cfg (.const (.uint32 (UInt32.ofNat address))) target
      else throw (.invalidAddress s!"{size} + {relative}")) a := by
    refine .bind .get fun before a' _ => ?_
    dsimp only
    split
    · exact copy_edits _ _
    · exact .throw _
  refine .bind .get fun before a' hget => ?_
  obtain ⟨rfl, rfl⟩ := Yields.get_iff.mp hget
  split
  next hmissing =>
    refine .bind (define_edits ?_) fun _ _ _ => hcopy
    exact OrderedMap.contains_eq_false_iff.mp (by simpa using hmissing)
  next => exact hcopy

theorem jumpIfFalse_edits (condition : String) (target : JumpTarget) :
    MadeOf (Edit cfg.catalog) (Emit.jumpIfFalse cfg condition target) a :=
  .bind (pushSlot_edits _ _ _) fun _ _ _ => instruction_edits trivial

theorem jumpIndirect_edits (address : String) :
    MadeOf (Edit cfg.catalog) (Emit.jumpIndirect cfg address) a :=
  .bind (checkSlot_edits _ _ _) fun _ _ hcheck => instruction_edits (contains_of_checkSlot hcheck)

/-- An operation is noted before it is called. -/
theorem callPushed_edits (name : String) :
    MadeOf (Edit cfg.catalog) (Emit.callPushed cfg name) a := by
  unfold Emit.callPushed
  split
  · exact .throw_bind _ _
  · refine .bind (.modify (.called name)) fun _ a' hnote => instruction_edits ?_
    obtain rfl := Yields.modify_iff.mp hnote
    show name ∈ (if name ∈ a.called then a.called else a.called ++ [name])
    split
    next hmem => exact hmem
    next => exact List.mem_append_right _ List.mem_cons_self

theorem checkArguments_edits (name : String) (index : Nat) (pairs : List (String × Parameter)) :
    MadeOf (Edit cfg.catalog) (Emit.checkArguments cfg name index pairs) a := by
  induction pairs generalizing a index with
  | nil => exact .pure _
  | cons pair pairs ih =>
    refine .bind .get fun before a' hget => ?_
    obtain ⟨rfl, rfl⟩ := Yields.get_iff.mp hget
    split
    next hfresh => exact .bind (define_edits hfresh) fun _ _ _ => ih _
    next v _ =>
      split
      · exact ih _
      · exact .throw_bind _ _

theorem checkCall_edits (name : String) (arguments : List String) :
    MadeOf (Edit cfg.catalog) (Emit.checkCall cfg name arguments) a := by
  unfold Emit.checkCall
  split
  · exact .throw _
  · split
    · exact .throw_bind _ _
    · exact checkArguments_edits _ _ _

theorem pushAll_edits (names : List String) :
    MadeOf (Edit cfg.catalog) (Emit.pushAll cfg names) a := by
  induction names generalizing a with
  | nil => exact .pure _
  | cons name names ih => exact .bind (pushSlot_edits _ _ _) fun _ _ _ => ih

theorem call_edits (name : String) (operands : List Operand) :
    MadeOf (Edit cfg.catalog) (Emit.call cfg name operands) a := by
  refine .bind (slots_edits operands) fun arguments a' _ => ?_
  have hrest : ∀ {a : Assembly}, MadeOf (Edit cfg.catalog) (do
      Emit.pushAll cfg arguments
      Emit.callPushed cfg name) a :=
    .bind (pushAll_edits _) fun _ _ _ => callPushed_edits _
  split
  · exact .bind (checkCall_edits _ _) fun _ _ _ => hrest
  · exact hrest

end Emit

end SexprAsm
