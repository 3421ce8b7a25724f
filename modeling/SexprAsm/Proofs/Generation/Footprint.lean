import SexprAsm.Proofs.Generation.Coherence

/-!
# What a step leaves behind

A unit that is none of an event or of inline assembly keeps to what is its own. Its steps append
code, give targets to the jumps that the unit has emitted itself, and rent temporaries and give them
back (`Confined`). The slots that the new code names are those that the unit knows of, those that
the tree names, those of literals, and temporaries that were free.

`Confined` composes, so a step is taken apart into the few things that it is made of: appending
code, giving jumps a target, renting and giving back. Whether types are checked makes no
difference here.
-/

namespace SexprAsm

open Generation Workspace

/-! ## Appending code

What is emitted without patching leaves the workspace as it was but for the code behind its end.
Each kind of emission has its lemma here, which names the instructions that it appends. -/

/-- A workspace with more code behind its own, and all else as it was. -/
structure Appends (w : Workspace) (code : List Instruction) (w' : Workspace) : Prop where
  emits : Emits w.assembly code w'.assembly
  rest : w' = { w with assembly := w'.assembly }

namespace Appends

variable {w w' : Workspace} {code : List Instruction}

theorem refl (w : Workspace) : Appends w [] w := ⟨.refl _, rfl⟩

theorem ofEmits {a : Assembly} (h : Emits w.assembly code a) :
    Appends w code { w with assembly := a } :=
  ⟨h, rfl⟩

theorem trans {w'' : Workspace} {code' : List Instruction} (h : Appends w code w')
    (h' : Appends w' code' w'') : Appends w (code ++ code') w'' := by
  refine ⟨h.emits.trans h'.emits, ?_⟩
  rw [h'.rest, h.rest]

theorem pooled (h : Appends w code w') (hpooled : w.Pooled) : w'.Pooled := by
  rw [h.rest]
  exact hpooled.onAssembly h.emits.heap

theorem rented (h : Appends w code w') : w'.rented = w.rented := by rw [h.rest]

theorem pools (h : Appends w code w') : w'.pools = w.pools := by rw [h.rest]

theorem entryPoints (h : Appends w code w') : w'.entryPoints = w.entryPoints := by rw [h.rest]

theorem findings (h : Appends w code w') : w'.findings = w.findings := by rw [h.rest]

theorem code_eq (h : Appends w code w') :
    w'.assembly.instructions = w.assembly.instructions ++ code :=
  h.emits.code

theorem length_eq (h : Appends w code w') :
    w'.assembly.instructions.length = w.assembly.instructions.length + code.length := by
  rw [h.code_eq, List.length_append]

end Appends

section Operations

variable {cfg : Setting} {w w' : Workspace} {u u' : WorkUnit} {id : InstructionId}

theorem Appends.nop (h : Yields (Compile.emit (Emit.instruction .nop)) w id w') :
    Appends w [.nop] w' := by
  obtain ⟨a, hnop, rfl⟩ := Compile.emit_iff.mp h
  exact .ofEmits (Emit.instruction_spec hnop).2

theorem Appends.jump {target : JumpTarget}
    (h : Yields (Compile.emit (Emit.instruction (.jump target))) w id w') :
    id = w.assembly.instructions.length ∧ Appends w [.jump target] w' := by
  obtain ⟨a, hjump, rfl⟩ := Compile.emit_iff.mp h
  obtain ⟨hid, hemits⟩ := Emit.instruction_spec hjump
  exact ⟨hid, .ofEmits hemits⟩

theorem Appends.jumpIfFalse {condition : String} {target : JumpTarget}
    (h : Yields (Compile.emit (Emit.jumpIfFalse cfg condition target)) w id w') :
    id = w.assembly.instructions.length + 1 ∧
      Appends w [.push condition, .jumpIfFalse target] w' := by
  obtain ⟨a, hjump, rfl⟩ := Compile.emit_iff.mp h
  obtain ⟨hid, hemits, -⟩ := Emit.jumpIfFalse_spec hjump
  exact ⟨hid, .ofEmits hemits⟩

theorem Appends.typeOf? {name : String} {found : Option TypeId}
    (h : Yields (Compile.emit (Emit.typeOf? cfg name)) w found w') : Appends w [] w' := by
  obtain ⟨a, htype, rfl⟩ := Compile.emit_iff.mp h
  exact .ofEmits (Emit.typeOf?_spec htype).1

theorem Appends.copy (hsound : w.assembly.heap.Sound) {source : Operand} {target : String}
    (h : Yields (Compile.emit (Emit.copy cfg source target)) w id w') :
    ∃ slot, source.In cfg.catalog w'.assembly.heap slot ∧
      Appends w [.push slot, .push target, .copy] w' := by
  obtain ⟨a, hcopy, rfl⟩ := Compile.emit_iff.mp h
  obtain ⟨slot, hin, hemits, -⟩ := Emit.copy_spec hcopy hsound
  exact ⟨slot, hin, .ofEmits hemits⟩

/-- The code that copies a slot to a target, if there is one. -/
def copyCode (slot : String) : Option String → List Instruction
  | none => []
  | some target => [.push slot, .push target, .copy]

theorem Appends.copyToTarget (hsound : w.assembly.heap.Sound)
    {source : Operand} (h : Yields (Generation.copyToTarget cfg u source) w () w') :
    ∃ slot, (u.target.isSome = true → source.In cfg.catalog w'.assembly.heap slot) ∧
      Appends w (copyCode slot u.target) w' := by
  rcases copyToTarget_cases h with ⟨htarget, rfl⟩ | ⟨target, id, htarget, hcopy⟩
  · rw [htarget]
    exact ⟨"", by simp, .refl _⟩
  · obtain ⟨slot, hin, happends⟩ := Appends.copy hsound hcopy
    rw [htarget]
    exact ⟨slot, fun _ => hin, happends⟩

/-- A call pushes the slots of its operands, and calls. -/
theorem Appends.call (hsound : w.assembly.heap.Sound) {name : String} {operands : List Operand}
    (h : Yields (Compile.emit (Emit.call cfg name operands)) w id w') :
    ∃ slots heap, List.Forall₂ (Operand.In cfg.catalog heap) operands slots ∧
      Appends w (slots.map .push ++ [.call name]) w' ∧
      (cfg.typeCheck = true → ∃ op, cfg.catalog.operationNamed? name = some op ∧
        op.parameters.length = slots.length) := by
  obtain ⟨a, hcall, rfl⟩ := Compile.emit_iff.mp h
  obtain ⟨slots, heap, hin, -, -, hemits, hchecked⟩ := Emit.call_spec hcall hsound
  refine ⟨slots, heap, hin, .ofEmits hemits, fun hcheck => ?_⟩
  obtain ⟨op, hop, hlength, -⟩ := hchecked hcheck
  exact ⟨op, hop, hlength⟩

end Operations

/-! ## Code that is left alone

Patching is the only thing that changes code that is there. It changes the targets of the jumps
that it is handed and nothing else (`patchAll_spec`), so all other instructions stay (`Touches`). -/

/-- Code has only been appended, but for the targets of some jumps. -/
structure Touches (jumps : List InstructionId) (w w' : Workspace) : Prop where
  grows : w.assembly.instructions.length ≤ w'.assembly.instructions.length
  code : ∀ k, k < w.assembly.instructions.length → k ∉ jumps →
    w'.assembly.instructions[k]? = w.assembly.instructions[k]?

namespace Touches

variable {jumps jumps' : List InstructionId} {w w' w'' : Workspace}

theorem refl (jumps : List InstructionId) (w : Workspace) : Touches jumps w w :=
  ⟨Nat.le_refl _, fun _ _ _ => rfl⟩

theorem ofCode {code : List Instruction}
    (h : w'.assembly.instructions = w.assembly.instructions ++ code) : Touches jumps w w' := by
  refine ⟨by rw [h, List.length_append]; omega, fun k hk _ => ?_⟩
  rw [h, List.getElem?_append_left hk]

theorem mono (h : Touches jumps w w') (hjumps : ∀ k ∈ jumps, k ∈ jumps') : Touches jumps' w w' :=
  ⟨h.grows, fun k hk hnot => h.code k hk fun hmem => hnot (hjumps k hmem)⟩

/-- Jumps that have been emitted on the way do not count. -/
theorem trans (h : Touches jumps w w') (h' : Touches jumps' w' w'')
    (hjumps : ∀ k ∈ jumps', k ∈ jumps ∨ w.assembly.instructions.length ≤ k) :
    Touches jumps w w'' := by
  refine ⟨h.grows.trans h'.grows, fun k hk hnot => ?_⟩
  rw [h'.code k (hk.trans_le h.grows) fun hmem => ?_, h.code k hk hnot]
  rcases hjumps k hmem with hmem | hle
  · exact hnot hmem
  · omega

end Touches

/-- Giving jumps a target changes nothing else. -/
structure Retargets (jumps : List InstructionId) (target : JumpTarget) (w w' : Workspace) :
    Prop where
  rest : w' = { w with assembly := w'.assembly }
  heap : w'.assembly.heap = w.assembly.heap
  marks : w'.assembly.marks = w.assembly.marks
  length : w'.assembly.instructions.length = w.assembly.instructions.length
  follows : Follows w.assembly.instructions w'.assembly.instructions
  touches : Touches jumps w w'
  targets : ∀ k ∈ jumps, ∀ i, w.assembly.instructions[k]? = some i →
    ∃ i', i.retarget? target = some i' ∧ w'.assembly.instructions[k]? = some i'
  laid : w.assembly.Laid → w'.assembly.Laid

theorem patchAll_spec {jumps : List InstructionId} {target : JumpTarget} {w w' : Workspace}
    (h : Yields (patchAll target jumps) w () w') : Retargets jumps target w w' := by
  induction jumps generalizing w with
  | nil =>
    obtain ⟨-, rfl⟩ := Yields.pure_iff.mp h
    exact ⟨rfl, rfl, rfl, rfl, .refl _, .refl _ _, by simp, id⟩
  | cons jump jumps ih =>
    simp only [patchAll, Yields.bind_iff, Compile.emit_iff] at h
    obtain ⟨_, _, ⟨a, hpatch, rfl⟩, hrest⟩ := h
    obtain ⟨i, i', hget, hi, hheap, hcode, hlaid, hmarks⟩ := Emit.patch_spec hpatch
    obtain ⟨hrest', hheap', hmarks', hlength, hfollows, htouches, htargets, hlaid'⟩ := ih hrest
    dsimp only at hrest' hheap' hmarks' hlength hfollows htouches htargets hlaid'
    have hset : ∀ k, k ≠ jump → a.instructions[k]? = w.assembly.instructions[k]? := by
      intro k hk
      rw [hcode, List.getElem?_set_ne (Ne.symm hk)]
    have hself : a.instructions[jump]? = some i' := by
      rw [hcode, List.getElem?_set_self (List.getElem?_eq_some_iff.mp hget).1]
    have hsame : a.instructions.length = w.assembly.instructions.length := by
      rw [hcode, List.length_set]
    refine ⟨hrest', hheap'.trans hheap, hmarks'.trans hmarks, hlength.trans hsame, ?_,
      ⟨(hlength.trans hsame).ge, fun k hk hnot => ?_⟩, fun k hk j hj => ?_, hlaid' ∘ hlaid⟩
    · refine Follows.trans ?_ hfollows
      rw [hcode]
      exact .set hget hi
    · obtain ⟨hne, hnot⟩ := not_or.mp (List.mem_cons.not.mp hnot)
      rw [htouches.code k (by dsimp only; omega) hnot]
      exact hset k hne
    · by_cases hne : k = jump
      · subst hne
        obtain rfl := Option.some.inj (hget.symm.trans hj)
        refine ⟨i', hi, ?_⟩
        by_cases hmem : k ∈ jumps
        · -- A jump that is given the target again is the same.
          obtain ⟨i'', hi'', hget''⟩ := htargets k hmem i' hself
          rw [hget'', ← hi'']
          cases i <;> simp only [Instruction.retarget?, Option.some.injEq, reduceCtorEq] at hi <;>
            subst hi <;> rfl
        · rw [htouches.code k (List.getElem?_eq_some_iff.mp hself).1 hmem]
          exact hself
      · rcases List.mem_cons.mp hk with rfl | hmem
        · exact absurd rfl hne
        · exact htargets k hmem j ((hset k hne).trans hj)

/-- Instructions at known places stay what they are, but for the targets of jumps. -/
theorem patchAll_get {jumps : List InstructionId} {target : JumpTarget} {w w' : Workspace}
    (h : Yields (patchAll target jumps) w () w') {k : Nat} {i : Instruction}
    (hi : w.assembly.instructions[k]? = some i) :
    w'.assembly.instructions[k]? =
      some (if k ∈ jumps then (i.retarget? target).getD i else i) := by
  have hretargets := patchAll_spec h
  split
  next hmem =>
    obtain ⟨i', hi', hget⟩ := hretargets.targets k hmem i hi
    rw [hget, hi', Option.getD_some]
  next hmem => rw [hretargets.touches.code k (List.getElem?_eq_some_iff.mp hi).1 hmem, hi]

namespace Retargets

variable {jumps : List InstructionId} {target : JumpTarget} {w w' : Workspace}

theorem rented (h : Retargets jumps target w w') : w'.rented = w.rented := by rw [h.rest]

theorem pools (h : Retargets jumps target w w') : w'.pools = w.pools := by rw [h.rest]

theorem entryPoints (h : Retargets jumps target w w') : w'.entryPoints = w.entryPoints := by
  rw [h.rest]

theorem findings (h : Retargets jumps target w w') : w'.findings = w.findings := by rw [h.rest]

theorem pooled (h : Retargets jumps target w w') (hpooled : w.Pooled) : w'.Pooled := by
  rw [h.rest]
  refine hpooled.onAssembly ?_
  rw [h.heap]
  exact .refl _

end Retargets

/-! ## Slots that code names

New code is described by the slots that it names, those it pushes and those it jumps through
(`Within`). `Grows` puts this together with what is left alone. It composes, and both appending
and patching are cases of it, so a step is shown to grow by its parts. -/

/-- The slots that an instruction names are allowed: pushed, and as addresses to jump to. -/
def Instruction.Within (P D : String → Prop) : Instruction → Prop
  | .push name => P name
  | .jumpIndirect name => D name
  | _ => True

/-- A jump names no slot, whatever its target is. -/
theorem Instruction.within_of_retarget? {P D : String → Prop} {target : JumpTarget}
    {i i' : Instruction} (h : i.retarget? target = some i') : i'.Within P D := by
  cases i <;> simp only [retarget?, Option.some.injEq, reduceCtorEq] at h <;> subst h <;> trivial

/-- More code, which names only allowed slots. -/
structure Lengthens (P D : String → Prop) (w w' : Workspace) : Prop where
  later : w.Later w'
  within : ∀ k i, w.assembly.instructions.length ≤ k →
    w'.assembly.instructions[k]? = some i → i.Within P D

theorem Lengthens.trans {P D : String → Prop} {w w' w'' : Workspace} (h : Lengthens P D w w')
    (h' : Lengthens P D w' w'') : Lengthens P D w w'' := by
  refine ⟨h.later.trans h'.later, fun k i hk hi => ?_⟩
  rcases Nat.lt_or_ge k w'.assembly.instructions.length with hlt | hge
  · -- What the first part has added is still there, but for targets of jumps.
    have hget := List.getElem?_eq_getElem hlt
    obtain ⟨i', hi', hsame⟩ := h'.later.code k _ hget
    obtain rfl := Option.some.inj (hi.symm.trans hi')
    rcases hsame with hsame | ⟨target, htarget⟩
    · rw [hsame]
      exact h.within k _ hk hget
    · exact Instruction.within_of_retarget? htarget
  · exact h'.within k i hge hi

/-- Where no code is new, none of it names a slot. -/
theorem Lengthens.ofLength {P D : String → Prop} {w w' : Workspace} (h : w.Later w')
    (hlength : w'.assembly.instructions.length = w.assembly.instructions.length) :
    Lengthens P D w w' := by
  refine ⟨h, fun k i hk hi => ?_⟩
  have := (List.getElem?_eq_some_iff.mp hi).1
  omega

/-- More code, which names only allowed slots; of the code before, only the targets of some jumps
have changed. No entry point starts at the new code but one that was waiting for it. -/
structure Grows (P D : String → Prop) (jumps : List InstructionId) (w w' : Workspace) : Prop
    extends Lengthens P D w w' where
  touches : Touches jumps w w'
  marks : w'.assembly.marks = w.assembly.marks ++ List.replicate
    (w'.assembly.instructions.length - w.assembly.instructions.length) none
  laid : w.assembly.Laid → w'.assembly.Laid

namespace Grows

variable {P D : String → Prop} {jumps jumps' : List InstructionId} {w w' w'' : Workspace}

/-- All that is not in the assembly may change, but for what has been found out about nodes. -/
theorem besides (hassembly : w'.assembly = w.assembly) (hfindings : w'.findings = w.findings) :
    Grows P D jumps w w' := by
  refine ⟨.ofLength ⟨?_, ?_, hfindings⟩ (by rw [hassembly]), ⟨?_, fun k _ _ => ?_⟩, ?_, ?_⟩
  · rw [hassembly]
    exact .refl _
  · rw [hassembly]
    exact .refl _
  · rw [hassembly]
  · rw [hassembly]
  · rw [hassembly, Nat.sub_self]
    exact (List.append_nil _).symm
  · rw [hassembly]
    exact id

theorem refl (w : Workspace) : Grows P D jumps w w := besides rfl rfl

theorem trans (h : Grows P D jumps w w') (h' : Grows P D jumps' w' w'')
    (hjumps : ∀ k ∈ jumps', k ∈ jumps ∨ w.assembly.instructions.length ≤ k) :
    Grows P D jumps w w'' := by
  refine ⟨h.toLengthens.trans h'.toLengthens, h.touches.trans h'.touches hjumps, ?_,
    h'.laid ∘ h.laid⟩
  have hle := h.touches.grows
  have hle' := h'.touches.grows
  rw [h'.marks, h.marks, List.append_assoc, List.replicate_append_replicate]
  congr 2
  omega

theorem mono (h : Grows P D jumps w w') (hjumps : ∀ k ∈ jumps, k ∈ jumps') :
    Grows P D jumps' w w' :=
  ⟨h.toLengthens, h.touches.mono hjumps, h.marks, h.laid⟩

theorem ofEmits {code : List Instruction} (h : Emits w.assembly code w'.assembly)
    (hfindings : w'.findings = w.findings) (hcode : ∀ i ∈ code, i.Within P D) :
    Grows P D jumps w w' := by
  refine ⟨⟨⟨h.heap, ?_, hfindings⟩, fun k i hk hi => ?_⟩, .ofCode h.code, ?_, h.laid⟩
  · rw [h.code]
    exact .append _ _
  · rw [h.code, List.getElem?_append_right hk] at hi
    exact hcode i (List.mem_of_getElem? hi)
  · rw [h.marks, h.code, List.length_append, Nat.add_sub_cancel_left]

theorem ofAppends {code : List Instruction} (h : Appends w code w')
    (hcode : ∀ i ∈ code, i.Within P D) : Grows P D jumps w w' :=
  ofEmits h.emits h.findings hcode

theorem ofRetargets {target : JumpTarget} (h : Retargets jumps target w w') :
    Grows P D jumps w w' := by
  refine ⟨.ofLength ⟨?_, h.follows, h.findings⟩ h.length, h.touches, ?_, h.laid⟩
  · rw [h.heap]
    exact .refl _
  · rw [h.marks, h.length, Nat.sub_self]
    exact (List.append_nil _).symm

end Grows

/-! ## Units that keep to their own

What a unit may do to the code and to the temporaries is `Confined`. The names that its code may
need are given by a set of allowed names (`Vocabulary`), which holds those of the tree, of
literals and of all temporaries that are free; those that other units hold need not be in it. -/

/-- The name of an operand that is a variable. -/
def Operand.name? : Operand → Option String
  | .var name => some name
  | .const _ => none

/-- The jumps that a task has still to give a target. -/
def Task.jumps : Task → List InstructionId
  | .conditional _ pending exits => pending.toList ++ exits
  | .loop _ _ exit => exit.toList
  | .event skip => skip.toList
  | _ => []

/-- The slots that a task keeps for its later steps. -/
def Task.uses : Task → List String
  | .conditional condition _ _ => condition.toList
  | .loop _ condition _ => condition.toList
  | .call _ arguments => arguments.filterMap Operand.name?
  | .cast value => value.toList
  | .arrayFill _ slots => slots.toList.flatMap fun (array, scratch) => [array, scratch]
  | _ => []

/-- The task is none of an event or of inline assembly. -/
def Task.isLocal : Task → Bool
  | .inlineAsm | .event _ | .callEvent => false
  | _ => true

/-- The task gives temporaries back at its end. -/
def Task.givesBack : Task → Bool
  | .set | .conditional _ _ _ | .loop _ _ _ | .call _ _ | .cast _ | .arrayFill _ _ => true
  | _ => false

/-- The slots that a unit knows of. -/
def WorkUnit.uses (u : WorkUnit) : List String := u.target.toList ++ u.temps ++ u.task.uses

/-- The temporaries in use that are not held by a unit. -/
def WorkUnit.beneath (u : WorkUnit) (w : Workspace) (name : String) : Option TypeId :=
  if name ∈ u.temps then none else w.rented.get? name

/-- The temporaries of a unit are in use, and it holds none twice. -/
def WorkUnit.Holds (u : WorkUnit) (w : Workspace) : Prop :=
  u.temps.Nodup ∧ ∀ name ∈ u.temps, w.rented.get? name ≠ none

/-- All names that new code may need are allowed: those of the tree, of literals, and of temporaries
that are free. -/
structure Vocabulary (P : String → Prop) (t : Tree) (w : Workspace) : Prop where
  sound : w.assembly.heap.Sound
  pooled : w.Pooled
  named : ∀ id name, (t.tag id).text? = some name → P name
  constant : ∀ name, Heap.constantLead.toList <+: name.toList → P name
  free : ∀ name, tempLead.toList <+: name.toList → w.rented.get? name = none → P name

/-- The slot of an operand is allowed if the variable is, or if it is a literal. -/
theorem Vocabulary.operand {P : String → Prop} {t : Tree} {w : Workspace} (h : Vocabulary P t w)
    {c : Catalog} {heap : Heap} {source : Operand} {slot : String}
    (hsource : ∀ name, source.name? = some name → P name) (hin : source.In c heap slot) :
    P slot := by
  cases source with
  | var name =>
    obtain rfl : slot = name := hin
    exact hsource slot rfl
  | const value => exact h.constant slot hin.1

theorem Vocabulary.copy {P D : String → Prop} {t : Tree} {w : Workspace} (h : Vocabulary P t w)
    {c : Catalog} {heap : Heap} {source : Operand} {slot target : String}
    (hin : source.In c heap slot) (hsource : ∀ name, source.name? = some name → P name)
    (htarget : P target) :
    ∀ i ∈ [Instruction.push slot, .push target, .copy], i.Within P D := by
  simp only [List.forall_mem_cons, Instruction.Within]
  exact ⟨h.operand hsource hin, htarget, trivial, by simp⟩

theorem Vocabulary.appends {P : String → Prop} {t : Tree} {w w' : Workspace}
    {code : List Instruction} (h : Vocabulary P t w) (happends : Appends w code w') :
    Vocabulary P t w' := by
  refine ⟨happends.emits.sound h.sound, happends.pooled h.pooled, h.named, h.constant, ?_⟩
  rw [happends.rented]
  exact h.free

theorem Vocabulary.retargets {P : String → Prop} {t : Tree} {w w' : Workspace}
    {jumps : List InstructionId} {target : JumpTarget} (h : Vocabulary P t w)
    (hretargets : Retargets jumps target w w') : Vocabulary P t w' := by
  refine ⟨?_, hretargets.pooled h.pooled, h.named, h.constant, ?_⟩
  · rw [hretargets.heap]
    exact h.sound
  · rw [hretargets.rented]
    exact h.free

/-- What the steps of a unit may do: append code, give the unit's own jumps a target, and rent
temporaries and give them back. -/
structure Confined (P D : String → Prop) (t : Tree) (u : WorkUnit) (w : Workspace)
    (u' : WorkUnit) (w' : Workspace) : Prop where
  grows : Grows P D u.task.jumps w w'
  entryPoints : w'.entryPoints = w.entryPoints
  jumps : ∀ k ∈ u'.task.jumps, k ∈ u.task.jumps ∨
    w.assembly.instructions.length ≤ k ∧ k < w'.assembly.instructions.length
  beneath : ∀ name, u'.beneath w' name = u.beneath w name
  vocabulary : Vocabulary P t w'
  uses : ∀ name ∈ u'.uses, P name
  holds : u.Holds w → u'.Holds w'
  known : ∀ name, w'.Known name → w.Known name ∨ w.assembly.heap.slots.get? name = none

section Steps

variable {P D : String → Prop} {cfg : Setting} {t : Tree} {u u' u'' : WorkUnit}
  {w w' w'' : Workspace} {p : Progress} {n : Nat}

theorem WorkUnit.beneath_rent {type : TypeId} {name : String} (hpooled : w.Pooled)
    (h : Yields (Build.rent cfg type) w name w') (htemps : u'.temps = u.temps ++ [name])
    (other : String) : u'.beneath w' other = u.beneath w other := by
  obtain ⟨-, -, -, -, hfree, -, hrented⟩ := Build.rent_spec h hpooled
  unfold beneath
  rw [htemps, hrented]
  by_cases hname : other = name
  · simp [hname, hfree]
  · simp [hname]

theorem WorkUnit.beneath_release (hpooled : w.Pooled) (h : Yields (release u) w u' w')
    (other : String) : u'.beneath w' other = u.beneath w other := by
  obtain ⟨rfl, rfl⟩ := release_cases h
  obtain ⟨-, -, -, -, hrented⟩ := foldl_giveBack_spec hpooled u.temps
  unfold beneath
  rw [hrented, if_neg List.not_mem_nil]

theorem release_assembly (hpooled : w.Pooled) (h : Yields (release u) w u' w') :
    w'.assembly = w.assembly := by
  obtain ⟨rfl, rfl⟩ := release_cases h
  exact (foldl_giveBack_spec hpooled u.temps).2.1

namespace Confined

theorem trans (h : Confined P D t u w u' w') (h' : Confined P D t u' w' u'' w'') :
    Confined P D t u w u'' w'' := by
  have hgrows := h.grows.touches.grows
  have hgrows' := h'.grows.touches.grows
  refine ⟨h.grows.trans h'.grows fun k hk => (h.jumps k hk).imp_right And.left,
    h'.entryPoints.trans h.entryPoints, fun k hk => ?_,
    fun name => (h'.beneath name).trans (h.beneath name), h'.vocabulary, h'.uses,
    fun hholds => h'.holds (h.holds hholds), fun name hname => ?_⟩
  · rcases h'.jumps k hk with hk | ⟨hle, hlt⟩
    · rcases h.jumps k hk with hk | ⟨hle, hlt⟩
      · exact Or.inl hk
      · exact Or.inr ⟨hle, hlt.trans_le hgrows'⟩
    · exact Or.inr ⟨hgrows.trans hle, hlt⟩
  · rcases h'.known name hname with hname | hnone
    · exact h.known name hname
    · exact Or.inr (h.grows.later.heap.get?_eq_none hnone)

variable (hw : Vocabulary P t w) (hu : ∀ name ∈ u.uses, P name)

include hw hu

/-- Appending code, and noting what the later steps need. -/
theorem appends {code : List Instruction} {task : Task} (h : Appends w code w')
    (hcode : ∀ i ∈ code, i.Within P D)
    (hjumps : ∀ k ∈ task.jumps, k ∈ u.task.jumps ∨
      w.assembly.instructions.length ≤ k ∧ k < w'.assembly.instructions.length)
    (huses : ∀ name ∈ task.uses, P name) : Confined P D t u w { u with task := task } w' := by
  refine ⟨.ofAppends h hcode, h.entryPoints, hjumps, fun name => ?_, hw.appends h,
    fun name hname => ?_, ?_, fun name hname => Or.inl (hname.ofSame h.rented h.pools)⟩
  · show (if name ∈ u.temps then _ else _) = _
    rw [h.rented]
    rfl
  · rcases List.mem_append.mp hname with hname | hname
    · exact hu name (List.mem_append_left _ hname)
    · exact huses name hname
  · rintro ⟨hnodup, hrented⟩
    refine ⟨hnodup, ?_⟩
    rw [h.rented]
    exact hrented

/-- A step that only notes something for the later ones. -/
theorem notes (task : Task) (hjumps : ∀ k ∈ task.jumps, k ∈ u.task.jumps)
    (huses : ∀ name ∈ task.uses, P name) : Confined P D t u w { u with task := task } w :=
  appends hw hu (.refl w) (by simp) (fun k hk => Or.inl (hjumps k hk)) huses

/-- A step that appends code and changes nothing in its unit. -/
theorem emits {code : List Instruction} (h : Appends w code w')
    (hcode : ∀ i ∈ code, i.Within P D) : Confined P D t u w u w' :=
  appends hw hu h hcode (fun _ hk => Or.inl hk) fun _ hname => hu _ (List.mem_append_right _ hname)

theorem refl : Confined P D t u w u w := emits hw hu (.refl w) (by simp)

theorem patches {jumps : List InstructionId} {target : JumpTarget}
    (h : Yields (patchAll target jumps) w () w') (hjumps : ∀ k ∈ jumps, k ∈ u.task.jumps) :
    Confined P D t u w u w' := by
  have hretargets := patchAll_spec h
  refine ⟨.mono (.ofRetargets hretargets) hjumps, hretargets.entryPoints, fun k hk => Or.inl hk,
    fun name => ?_, hw.retargets hretargets, hu, ?_,
    fun name hname => Or.inl (hname.ofSame hretargets.rented hretargets.pools)⟩
  · rw [WorkUnit.beneath, WorkUnit.beneath, hretargets.rented]
  · rw [WorkUnit.Holds, WorkUnit.Holds, hretargets.rented]
    exact id

/-- A temporary that is rented was free, so its name is allowed. -/
theorem rents {type : TypeId} {name : String} (h : Yields (Build.rent cfg type) w name w') :
    Confined P D t u w { u with temps := u.temps ++ [name] } w' ∧ P name := by
  obtain ⟨hemits, hpooled, hfindings, hentries, hfree, htemp, hrented⟩ :=
    Build.rent_spec h hw.pooled
  have hname : P name := hw.free name htemp.1 hfree
  refine ⟨⟨.ofEmits hemits hfindings (by simp), hentries, fun k hk => Or.inl hk,
    WorkUnit.beneath_rent hw.pooled h rfl, ?_, fun other hother => ?_, ?_,
    fun other hother => Build.rent_known h hother⟩, hname⟩
  · refine ⟨hemits.sound hw.sound, hpooled, hw.named, hw.constant, fun other hlead hother => ?_⟩
    rw [hrented] at hother
    split at hother
    · cases hother
    · exact hw.free other hlead hother
  · simp only [WorkUnit.uses, List.mem_append, List.mem_singleton] at hother hu
    rcases hother with (hother | hother | rfl) | hother
    · exact hu other (Or.inl (Or.inl hother))
    · exact hu other (Or.inl (Or.inr hother))
    · exact hname
    · exact hu other (Or.inr hother)
  · rintro ⟨hnodup, hheld⟩
    refine ⟨?_, fun other hother => ?_⟩
    · refine List.nodup_append.mpr ⟨hnodup, List.nodup_singleton _, fun other hother last hlast => ?_⟩
      rw [List.mem_singleton.mp hlast]
      rintro rfl
      exact hheld other hother hfree
    · rw [hrented]
      split
      · exact by simp
      · rename_i hne
        rcases List.mem_append.mp hother with hother | hother
        · exact hheld other hother
        · exact absurd (List.mem_singleton.mp hother) hne

theorem releases (h : Yields (release u) w u' w') :
    Confined P D t u w u' w' ∧ u' = { u with temps := [] } := by
  have hassembly := release_assembly hw.pooled h
  have hbeneath := WorkUnit.beneath_release hw.pooled h
  obtain ⟨rfl, hw'⟩ := release_cases h
  obtain ⟨hpooled, -, hfindings, hentries, hrented⟩ := foldl_giveBack_spec hw.pooled u.temps
  rw [← hw'] at hpooled hfindings hentries hrented
  refine ⟨⟨.besides hassembly hfindings, hentries, fun k hk => Or.inl hk, hbeneath, ?_,
    fun name hname => ?_, fun _ => ⟨List.nodup_nil, by simp⟩, fun name hname => Or.inl ?_⟩, rfl⟩
  · refine ⟨hassembly ▸ hw.sound, hpooled, hw.named, hw.constant, fun name hlead hname => ?_⟩
    rw [hrented] at hname
    split at hname
    next hmem => exact hu name (List.mem_append_left _ (List.mem_append_right _ hmem))
    next => exact hw.free name hlead hname
  · simp only [WorkUnit.uses, List.append_nil, List.mem_append] at hname hu
    exact hu name (hname.imp_left Or.inl)
  · rw [hw'] at hname
    exact foldl_giveBack_known hname

/-! ### Parts of steps -/

theorem copies {source : Operand} {target : String} {id : InstructionId}
    (h : Yields (Compile.emit (Emit.copy cfg source target)) w id w')
    (hsource : ∀ name, source.name? = some name → P name) (htarget : P target) :
    Confined P D t u w u w' := by
  obtain ⟨slot, hin, happends⟩ := Appends.copy hw.sound h
  exact emits hw hu happends (hw.copy hin hsource htarget)

theorem copiesToTarget {source : Operand} (h : Yields (copyToTarget cfg u source) w () w')
    (hsource : ∀ name, source.name? = some name → P name) : Confined P D t u w u w' := by
  rcases copyToTarget_cases h with ⟨-, rfl⟩ | ⟨target, id, htarget, hcopy⟩
  · exact refl hw hu
  · refine copies hw hu hcopy hsource (hu target ?_)
    rw [WorkUnit.uses, htarget]
    exact List.mem_append_left _ (List.mem_append_left _ List.mem_cons_self)

theorem calls {name : String} {operands : List Operand} {id : InstructionId}
    (h : Yields (Compile.emit (Emit.call cfg name operands)) w id w')
    (hoperands : ∀ operand ∈ operands, ∀ name, operand.name? = some name → P name) :
    Confined P D t u w u w' := by
  obtain ⟨slots, heap, hin, happends, -⟩ := Appends.call hw.sound h
  refine emits hw hu happends fun i hi => ?_
  rcases List.mem_append.mp hi with hi | hi
  · obtain ⟨slot, hslot, rfl⟩ := List.mem_map.mp hi
    obtain ⟨n, hn, rfl⟩ := List.getElem_of_mem hslot
    have hlength : n < operands.length := hin.length_eq ▸ hn
    exact hw.operand (hoperands _ (List.getElem_mem hlength)) (hin.get hlength hn)
  · rw [List.mem_singleton.mp hi]
    trivial

end Confined

/-! ### Steps -/

/-- What a step of a unit leaves behind: besides what the unit is confined to, the target of the
child it goes to, and the temporaries that it holds at its end. -/
structure Footprint (P D : String → Prop) (t : Tree) (u : WorkUnit) (w : Workspace)
    (p : Progress) (u' : WorkUnit) (w' : Workspace) : Prop where
  confined : Confined P D t u w u' w'
  target : ∀ child name, p = .descend child (some name) → P name
  untouched : u.task.givesBack = false → u'.temps = u.temps
  released : p = .done → u.task.givesBack = true → u'.temps = []

section Kinds

variable (hw : Vocabulary P t w) (hu : ∀ name ∈ u.uses, P name)

include hw hu

/-- The end of a branch: it jumps to the end, and the jump over it lands behind that jump. -/
theorem EndsBranch.confined {condition : Option String} {pending pending' : Option InstructionId}
    {exits exits' : List InstructionId} (hends : EndsBranch n w pending pending' exits exits' w₁)
    (hjumps : u.task.jumps = pending.toList ++ exits)
    (hcondition : ∀ name ∈ condition.toList, P name) :
    Confined P D t u w { u with task := .conditional condition pending' exits' } w₁ := by
  rcases hends with ⟨-, rfl, rfl, rfl⟩ | ⟨-, rfl, exit, w₀, rfl, hexit, hpatch⟩
  · exact .notes hw hu _ (fun k hk => hjumps ▸ hk) hcondition
  obtain ⟨rfl, happends⟩ := Appends.jump hexit
  have hfirst : Confined P D t u w { u with
      task := .conditional condition pending (exits ++ [w.assembly.instructions.length]) } w₀ := by
    refine .appends hw hu happends (List.forall_mem_singleton.mpr trivial) ?_ hcondition
    intro k hk
    rw [hjumps]
    rcases List.mem_append.mp hk with hk | hk
    · exact Or.inl (List.mem_append_left _ hk)
    rcases List.mem_append.mp hk with hk | hk
    · exact Or.inl (List.mem_append_right _ hk)
    · rw [List.mem_singleton.mp hk, happends.length_eq]
      exact Or.inr ⟨Nat.le_refl _, Nat.lt_succ_self _⟩
  have hsecond := Confined.patches (D := D) hfirst.vocabulary hfirst.uses hpatch
    fun k hk => List.mem_append_left _ hk
  have hthird := Confined.notes (D := D) hsecond.vocabulary hsecond.uses
    (.conditional condition none (exits ++ [w.assembly.instructions.length]))
    (fun k hk => List.mem_append_right _ hk) hcondition
  exact (hfirst.trans hsecond).trans hthird

/-- After a condition, the jump over what it is for waits with those that have waited before. -/
theorem jumpOver_confined {name : String} {jump : InstructionId} {task : Task}
    (hjump : Yields (Compile.emit (Emit.jumpIfFalse cfg name .unresolved)) w jump w₁)
    (hrelease : Yields (release u) w₁ u₁ w') (hname : P name)
    (hjumps : ∀ k ∈ task.jumps, k = jump ∨ k ∈ u.task.jumps) (huses : task.uses = []) :
    Confined P D t u w { u₁ with task := task } w' := by
  obtain ⟨rfl, happends⟩ := Appends.jumpIfFalse hjump
  have hfirst : Confined P D t u w u w₁ := by
    refine .emits hw hu happends ?_
    simp only [List.forall_mem_cons, Instruction.Within]
    exact ⟨hname, trivial, by simp⟩
  obtain ⟨hsecond, rfl⟩ := Confined.releases (D := D) hfirst.vocabulary hu hrelease
  obtain ⟨hgrows, hentries, -, hbeneath, hvocabulary, hallowed, hholds, hknown⟩ :=
    hfirst.trans hsecond
  refine ⟨hgrows, hentries, fun k hk => ?_, hbeneath, hvocabulary, fun other hother => ?_,
    hholds, hknown⟩
  · rcases hjumps k hk with rfl | hk
    · refine Or.inr ⟨Nat.le_succ _, lt_of_lt_of_le ?_ hsecond.grows.touches.grows⟩
      rw [happends.length_eq]
      exact Nat.lt_succ_self _
    · exact Or.inl hk
  · refine hallowed other ?_
    simp only [WorkUnit.uses, huses, List.append_nil] at hother ⊢
    exact List.mem_append_left _ hother

theorem stepConditional_footprint {condition : Option String} {pending : Option InstructionId}
    {exits : List InstructionId}
    (h : Yields (stepConditional cfg t n u condition pending exits) w (p, u') w')
    (htask : u.task = .conditional condition pending exits) : Footprint P D t u w p u' w' := by
  have hgives : u.task.givesBack ≠ false := by simp [htask, Task.givesBack]
  have hjumps : u.task.jumps = pending.toList ++ exits := by rw [htask]; rfl
  have hcondition : ∀ name ∈ condition.toList, P name := by
    intro name hname
    refine hu name (List.mem_append_right _ ?_)
    rw [htask]
    exact hname
  have htarget : ∀ name, u.target = some name → P name := by
    intro name hname
    refine hu name (List.mem_append_left _ (List.mem_append_left _ ?_))
    rw [hname]
    exact List.mem_cons_self
  rcases stepConditional_cases h with ⟨-, rfl, w₁, w₂, u₁, hexits, hpending, hrelease, rfl⟩ |
    ⟨branch, -, ⟨-, name, jump, w₁, u₁, rfl, hjump, hrelease, rfl, rfl⟩ |
      ⟨-, pending', exits', w₁, hends, hnext⟩⟩
  · -- At the end, all jumps that are still waiting get their target.
    have hfirst : Confined P D t u w u w₁ :=
      .patches hw hu hexits fun k hk => hjumps ▸ List.mem_append_right _ hk
    have hsecond : Confined P D t u w₁ u w₂ :=
      .patches hfirst.vocabulary hu hpending fun k hk => hjumps ▸ List.mem_append_left _ hk
    obtain ⟨hthird, rfl⟩ := Confined.releases (D := D) hsecond.vocabulary hu hrelease
    have hlast := Confined.notes (D := D) hthird.vocabulary hthird.uses
      (.conditional condition none []) (by rintro _ ⟨⟩) hcondition
    exact ⟨((hfirst.trans hsecond).trans hthird).trans hlast, by simp,
      fun h => absurd h hgives, fun _ _ => rfl⟩
  · -- The temporary of the condition is given back as soon as it has been tested.
    refine ⟨jumpOver_confined hw hu hjump hrelease (hcondition name List.mem_cons_self)
        (fun k hk => ?_) rfl, fun child other hother => htarget other ?_,
      fun h => absurd h hgives, by simp⟩
    · exact (List.mem_cons.mp hk).imp_right fun hk => hjumps ▸ List.mem_append_right _ hk
    obtain ⟨rfl, -⟩ := release_cases hrelease
    exact (Progress.descend.inj hother).2
  · have hends' := EndsBranch.confined (D := D) hw hu hends hjumps hcondition
    rcases hnext with ⟨-, type, name, hrent, rfl, rfl⟩ | ⟨-, rfl, rfl, rfl⟩
    · obtain ⟨hrents, hname⟩ := Confined.rents (D := D) hends'.vocabulary hends'.uses hrent
      have hlast := Confined.notes (D := D) hrents.vocabulary hrents.uses
        (.conditional (some name) pending' exits') (fun k hk => hk)
        (List.forall_mem_singleton.mpr hname)
      refine ⟨(hends'.trans hrents).trans hlast, fun child other hother => ?_,
        fun h => absurd h hgives, by simp⟩
      rw [← Option.some.inj (Progress.descend.inj hother).2]
      exact hname
    · exact ⟨hends', fun child other hother => htarget other (Progress.descend.inj hother).2,
        fun h => absurd h hgives, by simp⟩

theorem stepLoop_footprint {start : Option InstructionId} {condition : Option String}
    {exit : Option InstructionId}
    (h : Yields (stepLoop cfg t n u start condition exit) w (p, u') w')
    (htask : u.task = .loop start condition exit) : Footprint P D t u w p u' w' := by
  have hgives : u.task.givesBack ≠ false := by simp [htask, Task.givesBack]
  have hjumps : u.task.jumps = exit.toList := by rw [htask]; rfl
  rcases stepLoop_cases h with ⟨-, test, type, name, -, hrent, rfl, rfl⟩ |
    ⟨-, name, jump, body, w₁, u₁, rfl, hjump, -, hrelease, rfl, rfl⟩ |
    ⟨-, rfl, back, w₁, w₂, hback, hpatch, hrelease⟩
  · obtain ⟨hrents, hname⟩ := Confined.rents (D := D) hw hu hrent
    have hlast := Confined.notes (D := D) hrents.vocabulary hrents.uses
      (.loop w.assembly.last? (some name) exit) (fun k hk => hjumps ▸ hk)
      (List.forall_mem_singleton.mpr hname)
    refine ⟨hrents.trans hlast, fun child other hother => ?_,
      fun h => absurd h hgives, by simp⟩
    rw [← Option.some.inj (Progress.descend.inj hother).2]
    exact hname
  · have hname : P name := by
      refine hu name (List.mem_append_right _ ?_)
      rw [htask]
      exact List.mem_cons_self
    refine ⟨jumpOver_confined hw hu hjump hrelease hname
        (fun k hk => Or.inl (List.mem_singleton.mp hk)) rfl, fun child other hother => ?_,
      fun h => absurd h hgives, by simp⟩
    obtain ⟨rfl, -⟩ := release_cases hrelease
    refine hu other (List.mem_append_left _ (List.mem_append_left _ ?_))
    rw [(Progress.descend.inj hother).2]
    exact List.mem_cons_self
  · obtain ⟨rfl, happends⟩ := Appends.jump hback
    have hfirst : Confined P D t u w u w₁ :=
      .emits hw hu happends (List.forall_mem_singleton.mpr trivial)
    have hsecond : Confined P D t u w₁ u w₂ :=
      .patches hfirst.vocabulary hu hpatch fun k hk => hjumps ▸ hk
    obtain ⟨hthird, rfl⟩ := Confined.releases (D := D) hsecond.vocabulary hu hrelease
    exact ⟨(hfirst.trans hsecond).trans hthird, by simp, fun h => absurd h hgives,
      fun _ _ => rfl⟩

theorem stepCall_footprint {id : OperationId} {arguments : List Operand}
    (h : Yields (stepCall cfg t n u id arguments) w (p, u') w')
    (htask : u.task = .call id arguments) : Footprint P D t u w p u' w' := by
  have hgives : u.task.givesBack ≠ false := by simp [htask, Task.givesBack]
  have harguments : ∀ operand ∈ arguments, ∀ name, operand.name? = some name → P name := by
    intro operand hoperand name hname
    refine hu name (List.mem_append_right _ ?_)
    rw [htask]
    exact List.mem_filterMap.mpr ⟨operand, hoperand, hname⟩
  -- One more argument, which is a variable that is allowed.
  have hmore : ∀ {name : String}, P name →
      ∀ operand ∈ arguments ++ [.var name], ∀ other, operand.name? = some other → P other := by
    intro name hname operand hoperand other hother
    rcases List.mem_append.mp hoperand with hoperand | hoperand
    · exact harguments operand hoperand other hother
    · rw [List.mem_singleton.mp hoperand] at hother
      exact Option.some.inj hother ▸ hname
  have huses : ∀ {name : String}, P name →
      ∀ other ∈ (Task.call id (arguments ++ [.var name])).uses, P other := by
    intro name hname other hother
    obtain ⟨operand, hoperand, hother⟩ := List.mem_filterMap.mp hother
    exact hmore hname operand hoperand other hother
  rcases stepCall_cases h with ⟨argument, -, ⟨name, ⟨-, hpassed⟩, rfl, rfl, rfl⟩ |
    ⟨-, type, name, hrent, rfl, rfl⟩⟩ |
    ⟨-, rfl, operands, u₁, w₁, last, w₂, hcompletes, hcall, hrelease⟩
  · have hname : P name := by
      unfold passedVariable? at hpassed
      split at hpassed
      · obtain ⟨child, -, htext⟩ := Option.bind_eq_some_iff.mp hpassed
        exact hw.named child name htext
      · cases hpassed
    exact ⟨.notes hw hu _ (by rintro _ ⟨⟩) (huses hname), by simp, fun h => absurd h hgives, by simp⟩
  · obtain ⟨hrents, hname⟩ := Confined.rents (D := D) hw hu hrent
    have hlast := Confined.notes (D := D) hrents.vocabulary hrents.uses
      (.call id (arguments ++ [.var name])) (by rintro _ ⟨⟩) (huses hname)
    refine ⟨hrents.trans hlast, fun child other hother => ?_, fun h => absurd h hgives, by simp⟩
    rw [← Option.some.inj (Progress.descend.inj hother).2]
    exact hname
  · have hready : Confined P D t u w u₁ w₁ ∧
        ∀ operand ∈ operands, ∀ name, operand.name? = some name → P name := by
      rcases hcompletes with ⟨-, rfl, rfl, rfl⟩ | ⟨type, target, -, htarget, rfl, rfl, rfl⟩ |
        ⟨type, name, -, -, rfl, hrent, rfl⟩
      · exact ⟨.refl hw hu, harguments⟩
      · refine ⟨.refl hw hu, hmore (hu target ?_)⟩
        rw [WorkUnit.uses, htarget]
        exact List.mem_append_left _ (List.mem_append_left _ List.mem_cons_self)
      · obtain ⟨hrents, hname⟩ := Confined.rents (D := D) hw hu hrent
        exact ⟨hrents, hmore hname⟩
    obtain ⟨hready, hoperands⟩ := hready
    have hcalls := Confined.calls (D := D) hready.vocabulary hready.uses hcall hoperands
    obtain ⟨hreleases, rfl⟩ := Confined.releases (D := D) hcalls.vocabulary hcalls.uses hrelease
    exact ⟨(hready.trans hcalls).trans hreleases, by simp, fun h => absurd h hgives, fun _ _ => rfl⟩

theorem stepArrayFill_footprint {type : TypeId} {slots : Option (String × String)}
    (h : Yields (stepArrayFill cfg t n u type slots) w (p, u') w')
    (htask : u.task = .arrayFill type slots) : Footprint P D t u w p u' w' := by
  have hgives : u.task.givesBack ≠ false := by simp [htask, Task.givesBack]
  have hslots : ∀ array scratch, slots = some (array, scratch) → P array ∧ P scratch := by
    rintro array scratch rfl
    constructor
    · refine hu array (List.mem_append_right _ ?_)
      rw [htask]
      exact List.mem_cons_self
    · refine hu scratch (List.mem_append_right _ ?_)
      rw [htask]
      exact List.mem_cons_of_mem _ List.mem_cons_self
  obtain ⟨slots', u₁, w₁, hfills, hends⟩ := stepArrayFill_cases h
  have hfills' : Confined P D t u w u₁ w₁ ∧
      ∀ array scratch, slots' = some (array, scratch) → P array ∧ P scratch := by
    rcases hfills with ⟨-, array, scratch, element, elementName, length, id, u₀, w₀, w₂, harray,
      hrent, rfl, rfl, hcall⟩ | ⟨array, scratch, index, id, rfl, rfl, rfl, hcall⟩ |
      ⟨rfl, rfl, rfl, rfl⟩
    · -- The array is the target, which may be used, or a temporary of its own.
      have hfirst : Confined P D t u w u₀ w₀ ∧ P array := by
        rcases harray with ⟨htarget, rfl, rfl⟩ | ⟨-, hrent, rfl⟩
        · refine ⟨.refl hw hu, hu array ?_⟩
          rw [WorkUnit.uses, htarget]
          exact List.mem_append_left _ (List.mem_append_left _ List.mem_cons_self)
        · exact Confined.rents hw hu hrent
      obtain ⟨hfirst, harray⟩ := hfirst
      obtain ⟨hsecond, hscratch⟩ :=
        Confined.rents (D := D) hfirst.vocabulary hfirst.uses hrent
      have hthird := Confined.calls (D := D) hsecond.vocabulary hsecond.uses hcall (by
        simp only [List.forall_mem_cons, Operand.name?]
        exact ⟨by simp, by simp, fun name hname => Option.some.inj hname ▸ harray, by simp⟩)
      refine ⟨(hfirst.trans hsecond).trans hthird, fun array' scratch' heq => ?_⟩
      obtain ⟨rfl, rfl⟩ := Prod.mk.inj (Option.some.inj heq)
      exact ⟨harray, hscratch⟩
    · obtain ⟨harray, hscratch⟩ := hslots array scratch rfl
      refine ⟨.calls hw hu hcall ?_, hslots⟩
      simp only [List.forall_mem_cons, Operand.name?]
      exact ⟨fun name hname => Option.some.inj hname ▸ harray,
        fun name hname => Option.some.inj hname ▸ hscratch, by simp, by simp⟩
    · exact ⟨.refl hw hu, by simp⟩
  obtain ⟨hfills', hslots'⟩ := hfills'
  rcases hends with ⟨element, array, scratch, rfl, rfl, rfl, -, rfl⟩ | ⟨rfl, hrelease⟩
  · obtain ⟨harray, hscratch⟩ := hslots' array scratch rfl
    have hlast := Confined.notes (D := D) hfills'.vocabulary hfills'.uses
      (.arrayFill type (some (array, scratch))) (by rintro _ ⟨⟩) (by
        show ∀ name ∈ [array, scratch], P name
        exact List.forall_mem_cons.mpr ⟨harray, List.forall_mem_singleton.mpr hscratch⟩)
    refine ⟨hfills'.trans hlast, fun child other hother => ?_, fun h => absurd h hgives, by simp⟩
    rw [← Option.some.inj (Progress.descend.inj hother).2]
    exact hscratch
  · obtain ⟨hreleases, rfl⟩ := Confined.releases (D := D) hfills'.vocabulary hfills'.uses hrelease
    exact ⟨hfills'.trans hreleases, by simp, fun h => absurd h hgives, fun _ _ => rfl⟩

/-- A step of a unit that is none of an event or of inline assembly is confined to what is its
own. -/
theorem step_footprint (hlocal : u.task.isLocal = true)
    (h : Yields (step cfg t u) w (p, u') w') : Footprint P D t u w p u' w' := by
  obtain ⟨node, target, n, temps, task⟩ := u
  -- A step sees its unit with the number of steps already counted on.
  suffices hcounted : Footprint P D t ⟨node, target, n + 1, temps, task⟩ w p u' w' from
    ⟨⟨hcounted.confined.grows, hcounted.confined.entryPoints, hcounted.confined.jumps,
      hcounted.confined.beneath, hcounted.confined.vocabulary, hcounted.confined.uses,
      hcounted.confined.holds, hcounted.confined.known⟩, hcounted.target, hcounted.untouched,
      hcounted.released⟩
  replace hu : ∀ name ∈ (⟨node, target, n + 1, temps, task⟩ : WorkUnit).uses, P name := hu
  have htarget : ∀ name, target = some name → P name := by
    rintro name rfl
    exact hu name (List.mem_append_left _ (List.mem_append_left _ List.mem_cons_self))
  cases task with
  | literal =>
    obtain ⟨rfl, rfl, ⟨id, -, hnop⟩ | ⟨target, id, rfl, hcopy⟩⟩ := stepLiteral_cases h
    · exact ⟨.emits hw hu (.nop hnop) (List.forall_mem_singleton.mpr trivial), by simp,
        fun _ => rfl, by rintro _ ⟨⟩⟩
    · exact ⟨.copies hw hu hcopy (by rintro _ ⟨⟩) (htarget target rfl), by simp, fun _ => rfl,
        by rintro _ ⟨⟩⟩
  | get =>
    obtain ⟨rfl, rfl, child, name, found, w₁, -, hname, htype, hcopy⟩ := stepGet_cases h
    have hfirst : Confined P D t ⟨node, target, n + 1, temps, .get⟩ w _ w₁ :=
      .emits hw hu (.typeOf? htype) (by simp)
    have hsecond := Confined.copiesToTarget (D := D) hfirst.vocabulary hu hcopy
      fun other hother => Option.some.inj hother ▸ hw.named child name hname
    exact ⟨hfirst.trans hsecond, by simp, fun _ => rfl, by rintro _ ⟨⟩⟩
  | declare =>
    obtain ⟨rfl, rfl, ⟨-, rfl⟩ | ⟨child, name, -, hname, hcopy⟩⟩ := stepDeclare_cases h
    · exact ⟨.refl hw hu, by simp, fun _ => rfl, by rintro _ ⟨⟩⟩
    · exact ⟨.copiesToTarget hw hu hcopy fun other hother =>
        Option.some.inj hother ▸ hw.named child name hname, by simp, fun _ => rfl, by rintro _ ⟨⟩⟩
  | set =>
    obtain ⟨first, name, -, hname, ⟨-, child, -, rfl, rfl, rfl⟩ | ⟨-, rfl, w₁, hcopy, hrelease⟩⟩ :=
      stepSet_cases h
    · refine ⟨.refl hw hu, fun child' other hother => ?_, by simp, by simp⟩
      rw [← Option.some.inj (Progress.descend.inj hother).2]
      exact hw.named first name hname
    · have hfirst := Confined.copiesToTarget (D := D) hw hu hcopy
        fun other hother => Option.some.inj hother ▸ hw.named first name hname
      obtain ⟨hsecond, rfl⟩ := Confined.releases (D := D) hfirst.vocabulary hu hrelease
      exact ⟨hfirst.trans hsecond, by simp, by rintro ⟨⟩, fun _ _ => rfl⟩
  | sequence =>
    obtain ⟨rfl, rfl, hnext⟩ := stepSequence_cases h
    refine ⟨.refl hw hu, fun child name hp => ?_, fun _ => rfl, fun _ => by rintro ⟨⟩⟩
    rcases hnext with ⟨child', -, rfl⟩ | ⟨-, rfl⟩
    · have hname := (Progress.descend.inj hp).2
      split at hname
      · exact htarget name hname
      · cases hname
    · cases hp
  | conditional condition pending exits => exact stepConditional_footprint hw hu h rfl
  | loop start condition exit => exact stepLoop_footprint hw hu h rfl
  | call id arguments => exact stepCall_footprint hw hu h rfl
  | cast value =>
    rcases stepCast_cases h with ⟨-, inner, type, name, -, hrent, rfl, rfl⟩ |
      ⟨-, rfl, w₁, hcopy, hrelease⟩
    · obtain ⟨hrents, hname⟩ := Confined.rents (D := D) hw hu hrent
      have hlast := Confined.notes (D := D) hrents.vocabulary hrents.uses (.cast (some name))
        (by rintro _ ⟨⟩) (List.forall_mem_singleton.mpr hname)
      refine ⟨hrents.trans hlast, fun child other hother => ?_, by rintro ⟨⟩, by simp⟩
      rw [← Option.some.inj (Progress.descend.inj hother).2]
      exact hname
    · have hfirst : Confined P D t ⟨node, target, n + 1, temps, .cast value⟩ w
          ⟨node, target, n + 1, temps, .cast value⟩ w₁ := by
        rcases hcopy with ⟨-, rfl⟩ | ⟨name, rfl, hcopy⟩
        · exact .refl hw hu
        · refine .copiesToTarget hw hu hcopy fun other hother => ?_
          rw [← Option.some.inj hother]
          exact hu name (List.mem_append_right _ List.mem_cons_self)
      obtain ⟨hsecond, rfl⟩ := Confined.releases (D := D) hfirst.vocabulary hu hrelease
      exact ⟨hfirst.trans hsecond, by simp, by rintro ⟨⟩, fun _ _ => rfl⟩
  | typeOf type =>
    obtain ⟨hcopy, rfl, rfl⟩ := step_typeOf_cases h
    exact ⟨.copiesToTarget hw hu hcopy (by rintro _ ⟨⟩), by simp, fun _ => rfl, by rintro _ ⟨⟩⟩
  | arrayFill type slots => exact stepArrayFill_footprint hw hu h rfl
  | inlineAsm => cases hlocal
  | event skip => cases hlocal
  | callEvent => cases hlocal

end Kinds

end Steps

/-! ## Jumps of conditionals and loops

Where the jumps of a conditional and of a loop end up is said here once more in terms of places
in the code, which is what the layout of both is read off from. -/

section Jumps

variable {cfg : Setting} {t : Tree} {n : Nat} {u u' : WorkUnit} {p : Progress} {w w' : Workspace}
  {condition : Option String} {pending pending' : Option InstructionId}
  {exits exits' : List InstructionId}

/-- The branch before has been closed: the last instruction jumps past the others, and the jump over
the branch lands behind it. -/
structure ClosesBranch (w : Workspace) (pending : Option InstructionId) (w' : Workspace) :
    Prop where
  rest : w' = { w with assembly := w'.assembly }
  pooled : w.Pooled → w'.Pooled
  length : w'.assembly.instructions.length = w.assembly.instructions.length + 1
  exit : ∃ target, w'.assembly.instructions[w.assembly.instructions.length]? = some (.jump target)
  kept : ∀ (k : Nat) target, w.assembly.instructions[k]? = some (.jump target) →
    ∃ target', w'.assembly.instructions[k]? = some (.jump target')
  lands : ∀ k ∈ pending, ∀ target, w.assembly.instructions[k]? = some (.jumpIfFalse target) →
    w'.assembly.instructions[k]? =
      some (.jumpIfFalse (.after (some w.assembly.instructions.length)))

theorem Generation.EndsBranch.cases (h : EndsBranch n w pending pending' exits exits' w') :
    (n = 0 ∧ pending' = pending ∧ exits' = exits ∧ w = w') ∨
      n ≠ 0 ∧ pending' = none ∧ exits' = exits ++ [w.assembly.instructions.length] ∧
        ClosesBranch w pending w' := by
  refine h.imp_right ?_
  rintro ⟨hn, hpending, exit, w₁, rfl, hjump, hpatch⟩
  obtain ⟨rfl, happends⟩ := Appends.jump hjump
  have hretargets := patchAll_spec hpatch
  have hget : ∀ k i, w.assembly.instructions[k]? = some i →
      w₁.assembly.instructions[k]? = some i := fun k i hi => by
    rw [happends.code_eq, List.getElem?_append_left (List.getElem?_eq_some_iff.mp hi).1, hi]
  refine ⟨hn, hpending, rfl, by rw [hretargets.rest, happends.rest],
    fun hpooled => hretargets.pooled (happends.pooled hpooled), ?_, ?_, fun k target hi => ?_,
    fun k hk target hi => ?_⟩
  · rw [hretargets.length, happends.length_eq]
    rfl
  · rw [patchAll_get hpatch (i := .jump .unresolved) (by rw [happends.code_eq]; simp)]
    split <;> exact ⟨_, rfl⟩
  · rw [patchAll_get hpatch (hget k _ hi)]
    split <;> exact ⟨_, rfl⟩
  · rw [patchAll_get hpatch (hget k _ hi), if_pos (by simpa using hk)]
    rfl

/-- When all children have been compiled, the jumps that are left get the end as their target. -/
theorem stepConditional_end
    (h : Yields (stepConditional cfg t n u condition pending exits) w (p, u') w')
    (hn : (t.children u.node)[n]? = none) (hpooled : w.Pooled) :
    p = .done ∧ w'.assembly.instructions.length = w.assembly.instructions.length ∧
      (∀ k ∈ pending, ∀ target, w.assembly.instructions[k]? = some (.jumpIfFalse target) →
        w'.assembly.instructions[k]? = some (.jumpIfFalse (.after w.assembly.last?))) ∧
      ∀ k ∈ exits, ∀ target, w.assembly.instructions[k]? = some (.jump target) →
        w'.assembly.instructions[k]? = some (.jump (.after w.assembly.last?)) := by
  obtain ⟨-, rfl, w₁, w₂, u₁, hexits, hpending, hrelease, -⟩ | ⟨branch, hbranch, -⟩ :=
    stepConditional_cases h
  swap
  · cases hn.symm.trans hbranch
  have hretargets₁ := patchAll_spec hexits
  have hretargets₂ := patchAll_spec hpending
  rw [release_assembly (hretargets₂.pooled (hretargets₁.pooled hpooled)) hrelease]
  refine ⟨rfl, by rw [hretargets₂.length, hretargets₁.length], fun k hk target hi => ?_,
    fun k hk target hi => ?_⟩
  · rw [patchAll_get hpending (patchAll_get hexits hi), if_pos (by simpa using hk)]
    split <;> rfl
  · rw [patchAll_get hpending (patchAll_get hexits hi), if_pos hk]
    split <;> rfl

/-- The last step of a loop jumps back, and lets the test leave the loop behind that jump. -/
theorem stepLoop_end {start exit : Option InstructionId}
    (h : Yields (stepLoop cfg t 2 u start condition exit) w (p, u') w') (hpooled : w.Pooled)
    (hexit : ∀ k ∈ exit, ∃ target, w.assembly.instructions[k]? = some (.jumpIfFalse target)) :
    p = .done ∧ w'.assembly.instructions.length = w.assembly.instructions.length + 1 ∧
      w'.assembly.instructions[w.assembly.instructions.length]? = some (.jump (.after start)) ∧
      (∀ k ∈ exit, w'.assembly.instructions[k]? =
        some (.jumpIfFalse (.after (some w.assembly.instructions.length)))) ∧
      ∀ k < w.assembly.instructions.length, k ∉ exit →
        w'.assembly.instructions[k]? = w.assembly.instructions[k]? := by
  obtain ⟨hzero, -⟩ | ⟨hone, -⟩ | ⟨-, rfl, back, w₁, w₂, hback, hpatch, hrelease⟩ :=
    stepLoop_cases h
  · cases hzero
  · cases hone
  obtain ⟨rfl, happends⟩ := Appends.jump hback
  have hretargets := patchAll_spec hpatch
  have hget : ∀ k < w.assembly.instructions.length,
      w₁.assembly.instructions[k]? = w.assembly.instructions[k]? := fun k hk => by
    rw [happends.code_eq, List.getElem?_append_left hk]
  have hlt : ∀ k ∈ exit, k < w.assembly.instructions.length := fun k hk => by
    obtain ⟨target, hi⟩ := hexit k hk
    exact (List.getElem?_eq_some_iff.mp hi).1
  rw [release_assembly (hretargets.pooled (happends.pooled hpooled)) hrelease]
  refine ⟨rfl, by rw [hretargets.length, happends.length_eq]; rfl, ?_, fun k hk => ?_,
    fun k hk hnot => ?_⟩
  · rw [patchAll_get hpatch (i := .jump (.after start)) (by rw [happends.code_eq]; simp), if_neg]
    exact fun hmem => Nat.lt_irrefl _ (hlt _ (Option.mem_toList.mp hmem))
  · obtain ⟨target, hi⟩ := hexit k hk
    rw [patchAll_get hpatch ((hget k (hlt k hk)).trans hi), if_pos (Option.mem_toList.mpr hk)]
    rfl
  · rw [hretargets.touches.code k (by rw [happends.length_eq]; omega)
      (Option.mem_toList.not.mpr hnot), hget k hk]

end Jumps

end SexprAsm
