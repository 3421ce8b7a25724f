import SexprAsm.Proofs.Assembly.Layout
import SexprAsm.Proofs.Heap
import SexprAsm.Proofs.Yields

/-!
# What emitting appends

Every emitting operation that succeeds puts a fixed row of instructions behind the code and only
adds to the heap (`Emits`). One lemma for each operation says which instructions these are and
what has been checked of the slots they name: slots stay as they are, so what has been checked
holds for good.
-/

namespace SexprAsm

/-- The entry points that start at the lines, in order, and the one that waits for the next line. -/
def Assembly.marks (a : Assembly) : List (Option String) :=
  a.lines.toList.map (·.label) ++ [a.pendingLabel]

theorem Assembly.length_marks (a : Assembly) : a.marks.length = a.instructions.length + 1 := by
  simp [marks, instructions]

theorem Assembly.getElem?_marks (a : Assembly) {n : Nat} (hn : n < a.lines.size) :
    a.marks[n]? = some (a.lines[n]?.bind (·.label)) := by
  rw [marks, List.getElem?_append_left (by simpa using hn), List.getElem?_map,
    Array.getElem?_toList, Array.getElem?_eq_getElem hn]
  rfl

theorem Assembly.marks_append (a : Assembly) (i : Instruction) :
    (a.append i).marks = a.marks ++ [none] := by
  simp [marks, append]

/-- An assembly with more code behind its own, over a heap with more slots. -/
structure Emits (a : Assembly) (code : List Instruction) (a' : Assembly) : Prop where
  heap : a.heap.Extends a'.heap
  sound : a.heap.Sound → a'.heap.Sound
  marks : a'.marks = a.marks ++ List.replicate code.length none
  code : a'.instructions = a.instructions ++ code
  laid : a.Laid → a'.Laid

namespace Emits

variable {a a' a'' : Assembly} {code code' : List Instruction}

theorem refl (a : Assembly) : Emits a [] a :=
  ⟨.refl _, id, (List.append_nil _).symm, (List.append_nil _).symm, id⟩

theorem trans (h : Emits a code a') (h' : Emits a' code' a'') : Emits a (code ++ code') a'' :=
  ⟨h.heap.trans h'.heap, h'.sound ∘ h.sound,
    by rw [h'.marks, h.marks, List.append_assoc, List.replicate_append_replicate,
      List.length_append],
    by rw [h'.code, h.code, List.append_assoc], h'.laid ∘ h.laid⟩

theorem onHeap {heap : Heap} (hext : a.heap.Extends heap) (hsound : a.heap.Sound → heap.Sound) :
    Emits a [] { a with heap := heap } :=
  ⟨hext, hsound, (List.append_nil _).symm, (List.append_nil _).symm, id⟩

end Emits

namespace TypeTable

theorem isAssignable_refl (types : TypeTable) (type : TypeId) :
    types.isAssignable type type = true := by
  unfold isAssignable
  cases types.size <;> simp [assignableWithin]

theorem isCompatible_refl (types : TypeTable) (type : TypeId) :
    types.isCompatible type type = true := by
  unfold isCompatible
  split
  next h => simp [h]
  next => simp [isAssignable_refl, *]

theorem accepts_refl (types : TypeTable) (type : TypeId) : types.accepts type type = true := by
  unfold accepts
  split
  next h => simp [h]
  next => exact isAssignable_refl types type

end TypeTable

/-- A predefined name may give a slot for null another value; none does so. -/
def Catalog.KeepsNull (c : Catalog) : Prop :=
  c.types.name TypeTable.void = TypeTable.voidName ∧
    ∀ name, Heap.constantLead.toList <+: name.toList → c.predefined.get? name = none

/-- The slot of an operand: that of a variable is its own, that of a literal holds it. -/
def Operand.In (c : Catalog) (heap : Heap) : Operand → String → Prop
  | .var name, slot => slot = name
  | .const value, slot =>
    Heap.constantLead.toList <+: slot.toList ∧ ∃ v, heap.slots.get? slot = some v ∧
      ((value.isNull = true → c.KeepsNull) → v.value.getD .null = value)

theorem Operand.In.mono {c : Catalog} {heap heap' : Heap} {operand : Operand} {slot : String}
    (h : operand.In c heap slot) (hext : heap.Extends heap') : operand.In c heap' slot := by
  cases operand with
  | var name => exact h
  | const value =>
    obtain ⟨hlead, v, hv, hvalue⟩ := h
    exact ⟨hlead, v, hext.slots slot v hv, hvalue⟩

/-- A slot fits a parameter: an input may be filled from it, an output may be stored in it unless
it is constant, and a parameter that is both has its very type. -/
def Parameter.Admits (types : TypeTable) (p : Parameter) (v : Variable) : Prop :=
  match p.direction with
  | .input => types.accepts p.type v.type = true
  | .output => types.isCompatible p.type v.type = true ∧ v.attributes.constant = false
  | .both => p.type = v.type ∧ v.attributes.constant = false

instance (types : TypeTable) (p : Parameter) (v : Variable) : Decidable (p.Admits types v) :=
  match h : p.direction with
  | .input => decidable_of_iff (types.accepts p.type v.type = true) (by simp only [Parameter.Admits, h])
  | .output => decidable_of_iff (types.isCompatible p.type v.type = true ∧
      v.attributes.constant = false) (by simp only [Parameter.Admits, h])
  | .both => decidable_of_iff (p.type = v.type ∧ v.attributes.constant = false)
      (by simp only [Parameter.Admits, h])

namespace Emit

variable {cfg : Setting} {a a' : Assembly} {id : InstructionId} {name : String}

/-! ## Instructions

One instruction is one line behind the code. Giving a jump its target replaces one, and keeps all
else. -/

theorem instruction_spec {i : Instruction} (h : Yields (Emit.instruction i) a id a') :
    id = a.instructions.length ∧ Emits a [i] a' := by
  simp only [Emit.instruction, Yields.bind_iff, Yields.get_iff, Yields.set_iff,
    Yields.pure_iff] at h
  obtain ⟨_, _, ⟨rfl, rfl⟩, _, _, rfl, rfl, rfl⟩ := h
  refine ⟨(a.length_instructions).symm, .refl _, fun h => h, a.marks_append i,
    a.instructions_append i, ?_⟩
  intro hlaid
  exact hlaid.append i

/-- Giving a jump another target replaces one instruction. -/
theorem patch_spec {target : JumpTarget} (h : Yields (Emit.patch id target) a () a') :
    ∃ i i', a.instructions[id]? = some i ∧ i.retarget? target = some i' ∧
      a'.heap = a.heap ∧ a'.instructions = a.instructions.set id i' ∧ (a.Laid → a'.Laid) ∧
      a'.marks = a.marks := by
  simp only [Emit.patch, Yields.bind_iff, Yields.get_iff] at h
  obtain ⟨_, _, ⟨rfl, rfl⟩, h⟩ := h
  cases hget : a.instruction? id with
  | none => simp [hget] at h
  | some i =>
    cases hi : i.retarget? target with
    | none => simp [hget, hi] at h
    | some i' =>
      simp only [hget, Option.bind_some, hi, Yields.set_iff] at h
      subst h
      refine ⟨i, i', by rw [Assembly.getElem?_instructions, hget], hi, rfl,
        a.instructions_modify id i', ?_, ?_⟩
      · intro hlaid
        exact hlaid.modify hget (Instruction.size_of_retarget? hi)
      · -- Only the instruction of a line changes, not its entry point.
        have hlabels : ((a.lines.modify id fun l => { l with instruction := i' }).map (·.label)) =
            a.lines.map (·.label) := by
          refine Array.ext_getElem? fun k => ?_
          rw [Array.getElem?_map, Array.getElem?_modify, Array.getElem?_map]
          split
          · rw [Option.map_map]
            rfl
          · rfl
        simp only [Assembly.marks, ← Array.toList_map, hlabels]

/-! ## Slots

What is emitted names slots, which are looked up, made or checked before. These only add to the
heap. -/

theorem define_spec {type : Option TypeId} {attributes : Attributes} {value : Option Value}
    (h : Yields (Emit.define cfg name type attributes value) a () a')
    (hfresh : a.heap.slots.get? name = none)
    (hconstant : attributes.constant = false) :
    Emits a [] a' ∧ a'.heap.slots.get? name =
      some (Heap.settle cfg.catalog name type attributes value) := by
  obtain ⟨heap, hdefine, rfl⟩ := onHeap_iff.mp h
  cases hheap : a.heap.define cfg.catalog name type attributes value with
  | error e => rw [hheap] at hdefine; cases hdefine
  | ok heap₁ =>
    rw [hheap] at hdefine
    obtain ⟨-, rfl⟩ := Prod.mk.inj (Except.ok.inj hdefine)
    obtain ⟨hext, hget⟩ := Heap.define_fresh hheap hfresh
    refine ⟨.onHeap hext fun hsound => ?_, hget⟩
    exact hsound.define hheap hfresh fun h => by rw [hconstant] at h; cases h

theorem typeOf?_spec {found : Option TypeId} (h : Yields (Emit.typeOf? cfg name) a found a') :
    Emits a [] a' ∧ found = (a'.heap.slots.get? name).map (·.type) ∧
      (found = none → a' = a ∧ cfg.catalog.predefined.get? name = none) := by
  obtain ⟨heap, htype, rfl⟩ := onHeap_iff.mp h
  refine ⟨.onHeap (Heap.typeOf?_extends htype) fun hsound => hsound.typeOf? htype,
    (Heap.typeOf?_ok htype).1, ?_⟩
  rintro rfl
  obtain ⟨rfl, -, hpinned⟩ := Heap.typeOf?_none htype
  exact ⟨rfl, hpinned⟩

theorem slot_spec {operand : Operand} (h : Yields (Emit.slot cfg operand) a name a')
    (hsound : a.heap.Sound) : Emits a [] a' ∧ operand.In cfg.catalog a'.heap name := by
  cases operand with
  | var n =>
    obtain ⟨rfl, rfl⟩ := Yields.pure_iff.mp h
    exact ⟨.refl _, rfl⟩
  | const value =>
    simp only [Emit.slot, Emit.constant] at h
    obtain ⟨heap, hconstant, rfl⟩ := onHeap_iff.mp h
    refine ⟨.onHeap (Heap.constant_extends hconstant) fun h => h.constant hconstant, ?_⟩
    obtain ⟨hlead, v, hv, hvalue⟩ := hsound.constant_slot hconstant
    refine ⟨hlead, v, hv, fun hnull => hvalue fun h => ?_⟩
    exact ⟨(hnull h).1, (hnull h).2 name hlead⟩

theorem slots_spec {operands : List Operand} {names : List String}
    (h : Yields (Emit.slots cfg operands) a names a') (hsound : a.heap.Sound) :
    Emits a [] a' ∧ List.Forall₂ (Operand.In cfg.catalog a'.heap) operands names := by
  induction operands generalizing a names with
  | nil =>
    obtain ⟨rfl, rfl⟩ := Yields.pure_iff.mp h
    exact ⟨.refl _, .nil⟩
  | cons operand operands ih =>
    simp only [Emit.slots, Yields.bind_iff, Yields.pure_iff] at h
    obtain ⟨name, a₁, hslot, names, a₂, hrest, rfl, rfl⟩ := h
    obtain ⟨hemits, hin⟩ := slot_spec hslot hsound
    obtain ⟨hemits', hall⟩ := ih hrest (hemits.sound hsound)
    exact ⟨hemits.trans hemits', .cons (hin.mono hemits'.heap) hall⟩

/-- A slot that has been checked is there, with the type expected if types are checked. -/
theorem checkSlot_spec {expected : Option TypeId} {exact : Bool}
    (h : Yields (Emit.checkSlot cfg name expected exact) a () a') :
    Emits a [] a' ∧ ∃ v, a'.heap.slots.get? name = some v ∧
      (cfg.typeCheck = true → ∀ type, expected = some type →
        if exact then v.type = type else cfg.catalog.types.isCompatible v.type type = true) := by
  simp only [Emit.checkSlot] at h
  split at h
  next => simp at h
  next =>
    obtain ⟨found, a₁, htype, hmatch⟩ := Yields.bind_iff.mp h
    obtain ⟨hemits, hfound, hnone⟩ := typeOf?_spec htype
    cases found with
    | none =>
      -- A free name that is not predefined takes the expected type.
      obtain ⟨rfl, hpinned⟩ := hnone rfl
      have hfresh : a₁.heap.slots.get? name = none := by simpa using hfound.symm
      obtain ⟨hemits', hget⟩ := define_spec hmatch hfresh rfl
      refine ⟨hemits', _, hget, ?_⟩
      rintro - type rfl
      have htype : (Heap.settle cfg.catalog name (some type) {} none).type = type := by
        simp [Heap.settle, hpinned]
      rw [htype, TypeTable.isCompatible_refl]
      simp
    | some actual =>
      obtain ⟨v, hv, hactual⟩ := Option.map_eq_some_iff.mp hfound.symm
      cases expected with
      | none =>
        obtain ⟨-, rfl⟩ := Yields.pure_iff.mp hmatch
        exact ⟨hemits, v, hv, fun _ type htype => by cases htype⟩
      | some type =>
        subst hactual
        by_cases hagrees : (if exact then v.type == type
            else cfg.catalog.types.isCompatible v.type type) = true
        · simp only [hagrees, Bool.not_true, Bool.and_false, Bool.false_eq_true, if_false,
            Yields.pure_iff] at hmatch
          obtain ⟨-, rfl⟩ := hmatch
          refine ⟨hemits, v, hv, ?_⟩
          intro _ other hother
          obtain rfl := Option.some.inj hother
          cases exact <;> simpa using hagrees
        · cases hcheck : cfg.typeCheck with
          | true => simp [hcheck, hagrees] at hmatch
          | false =>
            simp only [hcheck, Bool.false_and, Bool.false_eq_true, if_false,
              Yields.pure_iff] at hmatch
            obtain ⟨-, rfl⟩ := hmatch
            exact ⟨hemits, v, hv, by simp⟩

theorem pushSlot_spec {expected : Option TypeId} {exact : Bool}
    (h : Yields (Emit.pushSlot cfg name expected exact) a id a') :
    Emits a [.push name] a' ∧ id = a.instructions.length ∧
      ∃ v, a'.heap.slots.get? name = some v ∧
        (cfg.typeCheck = true → ∀ type, expected = some type →
          if exact then v.type = type else cfg.catalog.types.isCompatible v.type type = true) := by
  simp only [Emit.pushSlot, Yields.bind_iff] at h
  obtain ⟨_, a₁, hslot, hpush⟩ := h
  obtain ⟨hemits, v, hv, htype⟩ := checkSlot_spec hslot
  obtain ⟨rfl, hemits'⟩ := instruction_spec hpush
  refine ⟨hemits.trans hemits', ?_, v, hemits'.heap.slots name v hv, htype⟩
  rw [hemits.code, List.append_nil]

/-! ## Groups of instructions

Copies and jumps push their slots first. Each lemma names the row of instructions that is
appended. -/

/-- A copy finds the slot of its operand, and appends two pushes and the copying. -/
theorem copy_cases {source : Operand} {target : String}
    (h : Yields (Emit.copy cfg source target) a id a') :
    ∃ slot a₁, Yields (Emit.slot cfg source) a slot a₁ ∧
      Emits a₁ [.push slot, .push target, .copy] a' ∧
      ∃ v u, a'.heap.slots.get? slot = some v ∧ a'.heap.slots.get? target = some u ∧
        (cfg.typeCheck = true → cfg.catalog.types.isCompatible u.type v.type = true) := by
  simp only [Emit.copy, Yields.bind_iff, Yields.get_iff] at h
  obtain ⟨slot, a₁, hslot, _, a₂, hpush, _, _, ⟨rfl, rfl⟩, _, a₃, hpush', hcopy⟩ := h
  obtain ⟨hemits₂, -, v, hv, -⟩ := pushSlot_spec hpush
  obtain ⟨hemits₃, -, u, hu, htype⟩ := pushSlot_spec hpush'
  obtain ⟨-, hemits₄⟩ := instruction_spec hcopy
  refine ⟨slot, a₁, hslot, hemits₂.trans (hemits₃.trans hemits₄), v, u,
    (hemits₃.trans hemits₄).heap.slots slot v hv, hemits₄.heap.slots target u hu, ?_⟩
  intro hcheck
  have := htype hcheck _ rfl
  rwa [hv] at this

/-- A copy appends two pushes and the copying, between slots of compatible types if types are
checked. -/
theorem copy_spec {source : Operand} {target : String}
    (h : Yields (Emit.copy cfg source target) a id a') (hsound : a.heap.Sound) :
    ∃ slot, source.In cfg.catalog a'.heap slot ∧
      Emits a [.push slot, .push target, .copy] a' ∧
      ∃ v u, a'.heap.slots.get? slot = some v ∧ a'.heap.slots.get? target = some u ∧
        (cfg.typeCheck = true → cfg.catalog.types.isCompatible u.type v.type = true) := by
  obtain ⟨slot, a₁, hslot, hemits', hslots⟩ := copy_cases h
  obtain ⟨hemits, hin⟩ := slot_spec hslot hsound
  exact ⟨slot, hin.mono hemits'.heap, hemits.trans hemits', hslots⟩

/-- The address stored is that of the instruction `relative` bytes past the copy. -/
theorem copyOffset_spec {target : String} {relative : UInt32}
    (h : Yields (Emit.copyOffset cfg target relative) a id a') (hsound : a.heap.Sound) :
    Instruction.copySize + a.size + relative.toNat < UInt32.size ∧
    ∃ slot, (Operand.const (.uint32 (UInt32.ofNat
        (Instruction.copySize + a.size + relative.toNat)))).In cfg.catalog a'.heap slot ∧
      Emits a [.push slot, .push target, .copy] a' ∧
      ∃ v u, a'.heap.slots.get? slot = some v ∧ a'.heap.slots.get? target = some u ∧
        (cfg.typeCheck = true → cfg.catalog.types.isCompatible u.type v.type = true) := by
  simp only [Emit.copyOffset, Yields.bind_iff, Yields.get_iff] at h
  obtain ⟨_, _, ⟨rfl, rfl⟩, h⟩ := h
  -- Defining the slot first changes neither the code nor its size.
  have hrest : ∃ a₁, Emits a [] a₁ ∧ a₁.size = a.size ∧
      Yields (if Instruction.copySize + a₁.size + relative.toNat < UInt32.size then
        Emit.copy cfg (.const (.uint32 (UInt32.ofNat
          (Instruction.copySize + a₁.size + relative.toNat)))) target
        else throw (.invalidAddress s!"{a₁.size} + {relative}")) a₁ id a' := by
    split at h
    next hcontains =>
      simp only [Yields.bind_iff, Yields.get_iff] at h
      obtain ⟨_, a₁, hdefine, _, _, ⟨rfl, rfl⟩, h⟩ := h
      have hfresh : a.heap.slots.get? target = none :=
        OrderedMap.contains_eq_false_iff.mp (by simpa using hcontains)
      refine ⟨a₁, (define_spec hdefine hfresh rfl).1, ?_, h⟩
      obtain ⟨heap, -, rfl⟩ := onHeap_iff.mp hdefine
      rfl
    next =>
      simp only [Yields.bind_iff, Yields.get_iff] at h
      obtain ⟨_, _, ⟨rfl, rfl⟩, h⟩ := h
      exact ⟨a, .refl _, rfl, h⟩
  obtain ⟨a₁, hemits, hsize, hrest⟩ := hrest
  rw [hsize] at hrest
  split at hrest
  next hlt =>
    obtain ⟨slot, hin, hemits', hslots⟩ := copy_spec hrest (hemits.sound hsound)
    exact ⟨hlt, slot, hin, hemits.trans hemits', hslots⟩
  next => simp at hrest

theorem jumpIfFalse_spec {condition : String} {target : JumpTarget}
    (h : Yields (Emit.jumpIfFalse cfg condition target) a id a') :
    id = a.instructions.length + 1 ∧ Emits a [.push condition, .jumpIfFalse target] a' ∧
      ∃ v, a'.heap.slots.get? condition = some v ∧ (cfg.typeCheck = true →
        v.type = cfg.catalog.types.builtin TypeTable.booleanName) := by
  simp only [Emit.jumpIfFalse, Yields.bind_iff] at h
  obtain ⟨_, a₁, hpush, hjump⟩ := h
  obtain ⟨hemits, -, v, hv, htype⟩ := pushSlot_spec hpush
  obtain ⟨rfl, hemits'⟩ := instruction_spec hjump
  refine ⟨?_, hemits.trans hemits', v, hemits'.heap.slots _ v hv,
    fun hcheck => by simpa using htype hcheck _ rfl⟩
  rw [hemits.code, List.length_append, List.length_singleton]

theorem jumpIndirect_spec {address : String}
    (h : Yields (Emit.jumpIndirect cfg address) a id a') :
    Emits a [.jumpIndirect address] a' ∧ ∃ v, a'.heap.slots.get? address = some v ∧
      (cfg.typeCheck = true → v.type = cfg.catalog.types.builtin TypeTable.uint32Name) := by
  simp only [Emit.jumpIndirect, Yields.bind_iff] at h
  obtain ⟨_, a₁, hslot, hjump⟩ := h
  obtain ⟨hemits, v, hv, htype⟩ := checkSlot_spec hslot
  obtain ⟨-, hemits'⟩ := instruction_spec hjump
  exact ⟨hemits.trans hemits', v, hemits'.heap.slots _ v hv,
    fun hcheck => by simpa using htype hcheck _ rfl⟩

/-! ## Calls

A call pushes all of its operands. The check of the arguments may make the slots of some, so what
it says of an argument is about the slots before and after it (`ArgumentFits`). -/

theorem checkArgument_ok {index : Nat} {argument : String} {v : Variable} {p : Parameter}
    (h : Emit.checkArgument cfg name index argument v p = .ok ()) :
    p.Admits cfg.catalog.types v := by
  unfold Emit.checkArgument at h
  unfold Parameter.Admits
  cases hdirection : p.direction with
  | input => simpa [hdirection] using h
  | output | both =>
    simp only [hdirection] at h
    split at h
    next => cases h
    next hconstant =>
      split at h
      next => cases h
      next haccepted => exact ⟨by simpa using haccepted, by simpa using hconstant⟩

/-- An argument fits its parameter; one whose slot was not there and whose name is predefined has
been given its predefined type instead. -/
def ArgumentFits (c : Catalog) (before after : Heap) (argument : String) (p : Parameter) : Prop :=
  ∃ v, after.slots.get? argument = some v ∧
    (p.Admits c.types v ∨ before.slots.get? argument = none ∧
      c.predefined.get? argument = some v.type ∧ v.attributes.constant = false)

theorem ArgumentFits.mono {c : Catalog} {before before' after after' : Heap} {argument : String}
    {p : Parameter} (h : ArgumentFits c before' after argument p) (hbefore : before.Extends before')
    (hafter : after.Extends after') : ArgumentFits c before after' argument p := by
  obtain ⟨v, hv, hfits⟩ := h
  refine ⟨v, hafter.slots argument v hv, hfits.imp_right fun hloose => ⟨?_, hloose.2⟩⟩
  have hnone := hloose.1
  cases hget : before.slots.get? argument with
  | none => rfl
  | some u =>
    rw [hbefore.slots argument u hget] at hnone
    cases hnone

theorem checkArguments_spec {index : Nat} {pairs : List (String × Parameter)}
    (h : Yields (Emit.checkArguments cfg name index pairs) a () a') :
    Emits a [] a' ∧ ∀ pair ∈ pairs, ArgumentFits cfg.catalog a.heap a'.heap pair.1 pair.2 := by
  induction pairs generalizing a index with
  | nil =>
    obtain ⟨-, rfl⟩ := Yields.pure_iff.mp h
    exact ⟨.refl _, fun pair hpair => by cases hpair⟩
  | cons pair pairs ih =>
    obtain ⟨argument, p⟩ := pair
    simp only [Emit.checkArguments, Yields.bind_iff, Yields.get_iff] at h
    obtain ⟨_, _, ⟨rfl, rfl⟩, h⟩ := h
    have hfirst : ∃ a₁, Emits a [] a₁ ∧ ArgumentFits cfg.catalog a.heap a₁.heap argument p ∧
        Yields (Emit.checkArguments cfg name (index + 1) pairs) a₁ () a' := by
      cases hget : a.heap.slots.get? argument with
      | none =>
        simp only [hget, Yields.bind_iff] at h
        obtain ⟨_, a₁, hdefine, hrest⟩ := h
        obtain ⟨hemits, hslot⟩ := define_spec hdefine hget rfl
        refine ⟨a₁, hemits, ⟨_, hslot, ?_⟩, hrest⟩
        cases hpinned : cfg.catalog.predefined.get? argument with
        | none =>
          -- The slot takes the type of the parameter, which admits itself.
          left
          have htype : (Heap.settle cfg.catalog argument (some p.type) {} none).type = p.type := by
            simp [Heap.settle, hpinned]
          have hconstant : (Heap.settle cfg.catalog argument (some p.type) {}
              none).attributes.constant = false := by
            simp [Heap.settle, hpinned]
          unfold Parameter.Admits
          rw [htype, hconstant, TypeTable.accepts_refl, TypeTable.isCompatible_refl]
          cases p.direction <;> simp
        | some pinned =>
          right
          exact ⟨hget, by simp [Heap.settle, hpinned], by simp [Heap.settle, hpinned]⟩
      | some v =>
        simp only [hget] at h
        cases hok : Emit.checkArgument cfg name index argument v p with
        | error e => simp [hok] at h
        | ok _ =>
          rw [hok] at h
          exact ⟨a, .refl _, ⟨v, hget, Or.inl (checkArgument_ok hok)⟩, h⟩
    obtain ⟨a₁, hemits, hfits, hrest⟩ := hfirst
    obtain ⟨hemits', hfits'⟩ := ih hrest
    refine ⟨hemits.trans hemits', ?_⟩
    intro other hother
    rcases List.mem_cons.mp hother with rfl | hother
    · exact hfits.mono (.refl _) hemits'.heap
    · exact (hfits' other hother).mono hemits.heap (.refl _)

theorem pushAll_spec {names : List String} (h : Yields (Emit.pushAll cfg names) a () a') :
    Emits a (names.map .push) a' := by
  induction names generalizing a with
  | nil =>
    obtain ⟨-, rfl⟩ := Yields.pure_iff.mp h
    exact .refl _
  | cons name names ih =>
    simp only [Emit.pushAll, Yields.bind_iff] at h
    obtain ⟨_, a₁, hpush, hrest⟩ := h
    exact (pushSlot_spec hpush).1.trans (ih hrest)

theorem callPushed_spec (h : Yields (Emit.callPushed cfg name) a id a') :
    Emits a [.call name] a' := by
  simp only [Emit.callPushed] at h
  split at h
  next => simp at h
  next =>
    simp only [Yields.bind_iff, Yields.modify_iff] at h
    obtain ⟨_, _, rfl, hcall⟩ := h
    obtain ⟨hheap, hsound, hmarks, hcode, hlaid⟩ := (instruction_spec hcall).2
    exact ⟨hheap, hsound, hmarks, hcode, hlaid⟩

/-- A call of a known operation has as many arguments as the operation has parameters, and they are
checked in order. -/
theorem checkCall_cases {arguments : List String}
    (h : Yields (Emit.checkCall cfg name arguments) a () a') :
    ∃ op, cfg.catalog.operationNamed? name = some op ∧
      op.parameters.length = arguments.length ∧
      Yields (Emit.checkArguments cfg name 0 (arguments.zip op.parameters)) a () a' := by
  simp only [Emit.checkCall] at h
  cases hop : cfg.catalog.operationNamed? name with
  | none => simp [hop] at h
  | some op =>
    simp only [hop] at h
    split at h
    next => simp at h
    next hlength => exact ⟨op, rfl, by simpa using hlength, h⟩

theorem checkCall_spec {arguments : List String}
    (h : Yields (Emit.checkCall cfg name arguments) a () a') :
    Emits a [] a' ∧ ∃ op, cfg.catalog.operationNamed? name = some op ∧
      op.parameters.length = arguments.length ∧
      ∀ pair ∈ arguments.zip op.parameters,
        ArgumentFits cfg.catalog a.heap a'.heap pair.1 pair.2 := by
  obtain ⟨op, hop, hlength, hchecked⟩ := checkCall_cases h
  obtain ⟨hemits, hfits⟩ := checkArguments_spec hchecked
  exact ⟨hemits, op, hop, hlength, hfits⟩

/-- A call finds the slots of its operands, and appends a push for each, and the call. The arguments
are checked, if types are, once the literals among them have their slots. -/
theorem call_cases {operands : List Operand} (h : Yields (Emit.call cfg name operands) a id a') :
    ∃ arguments a₁, Yields (Emit.slots cfg operands) a arguments a₁ ∧
      Emits a₁ (arguments.map .push ++ [.call name]) a' ∧
      (cfg.typeCheck = true → ∃ op, cfg.catalog.operationNamed? name = some op ∧
        op.parameters.length = arguments.length ∧
        ∀ pair ∈ arguments.zip op.parameters,
          ArgumentFits cfg.catalog a₁.heap a'.heap pair.1 pair.2) := by
  simp only [Emit.call, Yields.bind_iff] at h
  obtain ⟨arguments, a₁, hslots, h⟩ := h
  refine ⟨arguments, a₁, hslots, ?_⟩
  cases hcheck : cfg.typeCheck with
  | false =>
    simp only [hcheck, Bool.false_eq_true, if_false, Yields.bind_iff] at h
    obtain ⟨_, a₂, hpush, hcalled⟩ := h
    exact ⟨(pushAll_spec hpush).trans (callPushed_spec hcalled), by simp⟩
  | true =>
    simp only [hcheck, if_true, Yields.bind_iff] at h
    obtain ⟨_, a₂, hcall, _, a₃, hpush, hcalled⟩ := h
    obtain ⟨hemits₂, op, hop, hlength, hfits⟩ := checkCall_spec hcall
    have hemits₃ := (pushAll_spec hpush).trans (callPushed_spec hcalled)
    refine ⟨hemits₂.trans hemits₃, fun _ => ⟨op, hop, hlength, fun pair hpair => ?_⟩⟩
    exact (hfits pair hpair).mono (.refl _) hemits₃.heap

/-- A call appends a push for each argument, and the call. The arguments are checked, if types are,
once the literals among them have their slots. -/
theorem call_spec {operands : List Operand} (h : Yields (Emit.call cfg name operands) a id a')
    (hsound : a.heap.Sound) :
    ∃ arguments heap, List.Forall₂ (Operand.In cfg.catalog heap) operands arguments ∧
      a.heap.Extends heap ∧ heap.Extends a'.heap ∧
      Emits a (arguments.map .push ++ [.call name]) a' ∧
      (cfg.typeCheck = true → ∃ op, cfg.catalog.operationNamed? name = some op ∧
        op.parameters.length = arguments.length ∧
        ∀ pair ∈ arguments.zip op.parameters,
          ArgumentFits cfg.catalog heap a'.heap pair.1 pair.2) := by
  obtain ⟨arguments, a₁, hslots, hemits₂, hchecked⟩ := call_cases h
  obtain ⟨hemits₁, hin⟩ := slots_spec hslots hsound
  exact ⟨arguments, a₁.heap, hin, hemits₁.heap, hemits₂.heap, hemits₁.trans hemits₂, hchecked⟩

end Emit

end SexprAsm
