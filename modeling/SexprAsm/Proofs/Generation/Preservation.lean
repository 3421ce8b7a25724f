import SexprAsm.Proofs.Generation.Coherence

/-!
# Every step keeps code well formed

What a unit needs to go on where it left off (`Fits`): its target may be written, its arguments have
slots, and a loop begins where a group starts. A step of a unit that fits keeps the invariant of the
compilation, and leaves a unit that fits.
-/

namespace SexprAsm

open Resolution Workspace

/-- A slot that may be a target: it may be written, or is the variable for the result of an event. -/
def Open (c : Catalog) (heap : Heap) (name : String) : Prop :=
  Assignable c heap name ∨ name = Catalog.returnValue

/-- The address that a caller of an event returns to is stored by the instructions from `n` on. -/
def StoresReturn (a : Assembly) (n : Nat) (pointer : String) (address : UInt32) : Prop :=
  ∃ slot v, a.instructions[n]? = some (.push slot) ∧
    a.instructions[n + 1]? = some (.push pointer) ∧ a.instructions[n + 2]? = some .copy ∧
    a.heap.slots.get? slot = some v ∧ v.value = some (.uint32 address)

/-- All that is recorded of nodes is backed. -/
def Backed (cfg : Setting) (t : Tree) (w : Workspace) : Prop :=
  ∀ id construct, w.construct? id = some construct → Meaning cfg t w.assembly.heap id construct

/-- What a unit needs of its task: a loop begins where a group starts, and what is handed to
operations has slots. -/
def TaskFits (cfg : Setting) (w : Workspace) (node : NodeId) : Task → Prop
  | .set => w.construct? node = some .set
  | .inlineAsm => False
  | .loop start _ _ => Lands w.assembly.instructions (.after start)
  | .call id arguments =>
    cfg.catalog.operationNamed? (cfg.catalog.operation id).fullName =
        some (cfg.catalog.operation id) ∧
      ∀ operand ∈ arguments, ∃ name, operand = .var name ∧
        w.assembly.heap.slots.contains name = true
  | .arrayFill _ (some (array, scratch)) =>
    w.assembly.heap.slots.contains array = true ∧ w.assembly.heap.slots.contains scratch = true
  | _ => True

/-- A unit that can go on. -/
structure Fits (cfg : Setting) (w : Workspace) (u : WorkUnit) : Prop where
  target : ∀ name, u.target = some name → Open cfg.catalog w.assembly.heap name
  task : TaskFits cfg w u.node u.task

/-- The outcome of a step: the invariant is kept, and the unit can go on. -/
structure Outcome (cfg : Setting) (u : WorkUnit) (w : Workspace) (p : Progress) (u' : WorkUnit)
    (w' : Workspace) : Prop where
  advances : Advances cfg.catalog w w'
  node : u'.node = u.node
  target : u'.target = u.target
  task : TaskFits cfg w' u'.node u'.task
  descend : ∀ child name, p = .descend child (some name) → Open cfg.catalog w'.assembly.heap name

variable {cfg : Setting} {t : Tree} {u u' : WorkUnit} {w w' w'' : Workspace} {p : Progress} {n : Nat}

theorem Assignable.mono {c : Catalog} {heap heap' : Heap} {name : String}
    (h : Assignable c heap name) (hext : heap.Extends heap') : Assignable c heap' name :=
  h.imp_left hext.contains

theorem Open.mono {c : Catalog} {heap heap' : Heap} {name : String} (h : Open c heap name)
    (hext : heap.Extends heap') : Open c heap' name :=
  h.imp_left fun h => Assignable.mono h hext

theorem Backed.later (h : Backed cfg t w) (hlater : w.Later w') : Backed cfg t w' := by
  intro id construct hconstruct
  rw [construct?, finding, hlater.findings] at hconstruct
  exact (h id construct hconstruct).mono fun name => hlater.heap.contains

theorem TaskFits.later {node : NodeId} {task : Task} (h : TaskFits cfg w node task)
    (hlater : w.Later w') : TaskFits cfg w' node task := by
  cases task with
  | set =>
    show w'.construct? node = some .set
    rw [construct?, finding, hlater.findings]
    exact h
  | loop start condition exit => exact hlater.code.lands h
  | call id arguments =>
    obtain ⟨hop, harguments⟩ := h
    refine ⟨hop, fun operand hoperand => ?_⟩
    obtain ⟨name, rfl, hname⟩ := harguments operand hoperand
    exact ⟨name, rfl, hlater.heap.contains hname⟩
  | arrayFill type slots =>
    cases slots with
    | none => trivial
    | some pair => exact ⟨hlater.heap.contains h.1, hlater.heap.contains h.2⟩
  | inlineAsm => exact h
  | _ => trivial

theorem Fits.later (h : Fits cfg w u) (hlater : w.Later w') : Fits cfg w' u :=
  ⟨fun name hname => (h.target name hname).mono hlater.heap, h.task.later hlater⟩

theorem StoresReturn.later {pointer : String} {address : UInt32}
    (h : StoresReturn w.assembly n pointer address) (hlater : w.Later w') :
    StoresReturn w'.assembly n pointer address := by
  obtain ⟨slot, v, hslot, hpointer, hcopy, hv, hvalue⟩ := h
  -- None of these instructions is a jump, so none of them changes.
  have hsame : ∀ {k : Nat} {i : Instruction}, (∀ target, i.retarget? target = none) →
      w.assembly.instructions[k]? = some i → w'.assembly.instructions[k]? = some i := by
    intro k i hnone hi
    obtain ⟨i', hi', rfl | ⟨target, htarget⟩⟩ := hlater.code k i hi
    · exact hi'
    · rw [hnone] at htarget
      cases htarget
  exact ⟨slot, v, hsame (fun _ => rfl) hslot, hsame (fun _ => rfl) hpointer,
    hsame (fun _ => rfl) hcopy, hlater.heap.slots slot v hv, hvalue⟩

/-! ## Copies and event calls

Storing an address and jumping are groups of instructions that belong together: the address
stored is the one behind the jump, where the next group starts. -/

section Steps

variable (hcheck : cfg.typeCheck = true) (hc : cfg.catalog.Indexed)

include hcheck in
theorem Coherent.copyToTarget (hw : Coherent cfg.catalog w) {source : Operand}
    (h : Yields (Generation.copyToTarget cfg u source) w () w') : Advances cfg.catalog w w' := by
  rcases Generation.copyToTarget_cases h with ⟨-, rfl⟩ | ⟨target, id, -, hcopy⟩
  · exact hw.refl
  · exact hw.copy hcheck hcopy

include hcheck in
/-- Storing the address `relative` bytes past a copy. -/
theorem Coherent.copyOffset (hw : Coherent cfg.catalog w) {pointer : String} {relative : UInt32}
    {id : InstructionId}
    (h : Yields (Compile.emit (Emit.copyOffset cfg pointer relative)) w id w') :
    Advances cfg.catalog w w' ∧ ∃ (address : UInt32) (slot : String),
      address.toNat = Instruction.copySize + w.assembly.size + relative.toNat ∧
      w'.assembly.instructions =
        w.assembly.instructions ++ [.push slot, .push pointer, .copy] ∧
      StoresReturn w'.assembly w.assembly.instructions.length pointer address := by
  obtain ⟨a, hcopy, rfl⟩ := Compile.emit_iff.mp h
  obtain ⟨hlt, slot, ⟨-, v, hv, hvalue⟩, hemits, v', u, hv', hu, htype⟩ :=
    Emit.copyOffset_spec hcopy hw.sound
  refine ⟨hw.emitGroup (.copy slot pointer) hemits ⟨v', u, hv', hu, htype hcheck⟩ ?_, ?_⟩
  · intro i hi target htarget
    rcases List.mem_cons.mp hi with rfl | hi
    · cases htarget
    · rcases List.mem_pair.mp hi with rfl | rfl <;> cases htarget
  · refine ⟨_, slot, UInt32.toNat_ofNat_of_lt' hlt, hemits.code, slot, v, ?_, ?_, ?_, hv, ?_⟩
    · simp [hemits.code]
    · simp [hemits.code]
    · simp [hemits.code]
    · have hget := hvalue fun hnull => by cases hnull
      cases hsome : v.value with
      | none =>
        rw [hsome] at hget
        cases hget
      | some value =>
        rw [hsome] at hget
        exact congrArg some hget

include hcheck in
/-- An event call stores the address right after its jump, where the next group starts. -/
theorem Coherent.callEvent (hw : Coherent cfg.catalog w) {label : String} {target : Option String}
    (h : Yields (Generation.callEvent cfg label target) w () w') :
    Advances cfg.catalog w w' ∧ ∃ entry address, w.entryPoints.get? label = some entry ∧
      StoresReturn w'.assembly w.assembly.instructions.length entry.returnPointer address ∧
      Lands w'.assembly.instructions (.after (some (w.assembly.instructions.length + 3))) ∧
      address.toNat = Instruction.bytes
        (w'.assembly.instructions.take (w.assembly.instructions.length + 4)) := by
  obtain ⟨entry, id, w₁, jump, w₂, w₃, id', w₄, hentry, hoffset, hjump, hcopy, hresult⟩ :=
    Generation.callEvent_cases h
  obtain ⟨hadv₁, address, slot, haddress, hcode₁, hstores⟩ := hw.copyOffset hcheck hoffset
  have hjump' : Advances cfg.catalog w₁ w₃ ∧ ∃ target,
      w₃.assembly.instructions = w₁.assembly.instructions ++ [.jump target] := by
    rcases hjump with ⟨start, hstart, hjump, rfl⟩ | ⟨-, hjump, hmodify⟩
    · have hlands := hadv₁.later.code.lands (hw.starts label entry start hentry hstart)
      obtain ⟨hadv₂, -, -, hcode₂⟩ := hadv₁.coherent.jump hjump hlands
      exact ⟨hadv₂, start, hcode₂⟩
    · obtain ⟨hadv₂, -, -, hcode₂⟩ := hadv₁.coherent.jump hjump trivial
      have hadv₃ := hadv₂.coherent.modifyEntry hmodify fun entry start hstart => Or.inl hstart
      refine ⟨hadv₂.trans hadv₃, .unresolved, ?_⟩
      obtain rfl := Yields.modify_iff.mp hmodify
      exact hcode₂
  obtain ⟨hadv₂, destination, hcode₂⟩ := hjump'
  have hadv₃ : Advances cfg.catalog w₃ w' := by
    have hadv := hadv₂.coherent.copy hcheck hcopy
    rcases hresult with ⟨-, rfl⟩ | ⟨slot, last, -, hresult⟩
    · exact hadv
    · exact hadv.trans (hadv.coherent.copy hcheck hresult)
  -- The four instructions up to the jump take as many bytes as the address has been moved by.
  have hlength : w₃.assembly.instructions.length = w.assembly.instructions.length + 4 := by
    rw [hcode₂, hcode₁]
    simp
  have hbytes : Instruction.bytes w₃.assembly.instructions =
      Instruction.bytes w.assembly.instructions + 28 := by
    rw [hcode₂, hcode₁]
    simp [Instruction.size]
  refine ⟨hadv₁.trans (hadv₂.trans hadv₃), entry, address, hentry,
    hstores.later (hadv₂.trans hadv₃).later, ?_, ?_⟩
  · refine hadv₃.later.code.lands ⟨.jump destination, ?_, rfl⟩
    rw [hcode₂, hcode₁]
    simp
  · rw [hadv₃.later.code.bytes_take hlength.ge, ← hlength, List.take_length, hbytes, haddress,
      hw.laid.size_eq]
    show 20 + _ + 8 = _
    omega

/-! ## Steps

One lemma for each kind of unit: the step keeps the invariant, its task still fits, and the
target that a child is given may be written. -/

/-- A unit that keeps its task and asks for no child. -/
theorem Outcome.finished (hadv : Advances cfg.catalog w w') (htask : TaskFits cfg w u.node u.task)
    (hu : u' = { u with temps := u'.temps }) (hp : p = .done) : Outcome cfg u w p u' w' := by
  subst hp
  rw [hu]
  exact ⟨hadv, rfl, rfl, htask.later hadv.later, fun child name h => by cases h⟩

include hcheck in
theorem stepLiteral_outcome (h : Yields (Generation.stepLiteral cfg t u) w (p, u') w')
    (hw : Coherent cfg.catalog w) (htask : TaskFits cfg w u.node u.task) :
    Outcome cfg u w p u' w' := by
  obtain ⟨hp, rfl, ⟨id, -, hnop⟩ | ⟨target, id, -, hcopy⟩⟩ := Generation.stepLiteral_cases h
  · exact .finished (hw.nop hnop) htask rfl hp
  · exact .finished (hw.copy hcheck hcopy) htask rfl hp

include hcheck in
theorem stepGet_outcome (h : Yields (Generation.stepGet cfg t u) w (p, u') w')
    (hw : Coherent cfg.catalog w) (htask : TaskFits cfg w u.node u.task) :
    Outcome cfg u w p u' w' := by
  obtain ⟨hp, rfl, child, name, found, w₁, -, -, htype, hcopy⟩ := Generation.stepGet_cases h
  have hadv := hw.typeOf? htype
  exact .finished (hadv.trans (hadv.coherent.copyToTarget hcheck hcopy)) htask rfl hp

include hcheck in
theorem stepDeclare_outcome (h : Yields (Generation.stepDeclare cfg t u) w (p, u') w')
    (hw : Coherent cfg.catalog w) (htask : TaskFits cfg w u.node u.task) :
    Outcome cfg u w p u' w' := by
  obtain ⟨hp, rfl, ⟨-, rfl⟩ | ⟨child, name, -, -, hcopy⟩⟩ := Generation.stepDeclare_cases h
  · exact .finished hw.refl htask rfl hp
  · exact .finished (hw.copyToTarget hcheck hcopy) htask rfl hp

include hcheck in
theorem stepSet_outcome (h : Yields (Generation.stepSet cfg t n u) w (p, u') w')
    (hw : Coherent cfg.catalog w) (htask : TaskFits cfg w u.node u.task) (hset : u.task = .set)
    (hbacked : Backed cfg t w) : Outcome cfg u w p u' w' := by
  obtain ⟨first, name, hfirst, hname, hcases⟩ := Generation.stepSet_cases h
  rcases hcases with ⟨-, child, -, rfl, rfl, rfl⟩ | ⟨-, hp, w₁, hcopy, hrelease⟩
  · refine ⟨hw.refl, rfl, rfl, htask, fun child' name' hp => ?_⟩
    obtain ⟨-, hname'⟩ := Progress.descend.inj hp
    obtain rfl := Option.some.inj hname'
    rw [hset] at htask
    exact Or.inl (hbacked u'.node .set htask first name hfirst hname)
  · have hadv := hw.copyToTarget hcheck hcopy
    obtain ⟨hadv', hu⟩ := hadv.coherent.release hrelease
    exact .finished (hadv.trans hadv') htask (by rw [hu]) hp

theorem stepSequence_outcome (h : Yields (Generation.stepSequence t n u) w (p, u') w')
    (hw : Coherent cfg.catalog w) (hfits : Fits cfg w u) : Outcome cfg u w p u' w' := by
  obtain ⟨rfl, rfl, ⟨child, -, rfl⟩ | ⟨-, rfl⟩⟩ := Generation.stepSequence_cases h
  · refine ⟨hw.refl, rfl, rfl, hfits.task, fun child' name hp => ?_⟩
    obtain ⟨-, hname⟩ := Progress.descend.inj hp
    split at hname
    · exact hfits.target name hname
    · cases hname
  · exact .finished hw.refl hfits.task rfl rfl

include hcheck in
theorem stepCast_outcome {value : Option String}
    (h : Yields (Generation.stepCast cfg t n u value) w (p, u') w')
    (hw : Coherent cfg.catalog w) (htask : TaskFits cfg w u.node u.task) :
    Outcome cfg u w p u' w' := by
  rcases Generation.stepCast_cases h with
    ⟨-, inner, type, name, -, hrent, rfl, rfl⟩ | ⟨-, hp, w₁, hcopy, hrelease⟩
  · obtain ⟨hadv, hname⟩ := hw.rent hrent
    refine ⟨hadv, rfl, rfl, trivial, fun child name' hp => ?_⟩
    obtain ⟨-, hname'⟩ := Progress.descend.inj hp
    obtain rfl := Option.some.inj hname'
    exact Or.inl (Or.inl hname)
  · have hadv : Advances cfg.catalog w w₁ := by
      rcases hcopy with ⟨-, rfl⟩ | ⟨name, -, hcopy⟩
      · exact hw.refl
      · exact hw.copyToTarget hcheck hcopy
    obtain ⟨hadv', hu⟩ := hadv.coherent.release hrelease
    exact .finished (hadv.trans hadv') htask (by rw [hu]) hp

include hcheck hc in
theorem stepConditional_outcome {condition : Option String} {pending : Option InstructionId}
    {exits : List InstructionId}
    (h : Yields (Generation.stepConditional cfg t n u condition pending exits) w (p, u') w')
    (hw : Coherent cfg.catalog w) (htarget : ∀ name, u.target = some name →
      Open cfg.catalog w.assembly.heap name) : Outcome cfg u w p u' w' := by
  rcases Generation.stepConditional_cases h with
    ⟨-, rfl, w₁, w₂, u₁, hexits, hpending, hrelease, rfl⟩ | ⟨branch, -, hbranch⟩
  · have hadv₁ := hw.patchAll hexits hw.lands_last
    have hadv₂ := hadv₁.coherent.patchAll hpending (hadv₁.later.code.lands hw.lands_last)
    obtain ⟨hadv₃, rfl⟩ := hadv₂.coherent.release hrelease
    exact ⟨hadv₁.trans (hadv₂.trans hadv₃), rfl, rfl, trivial, fun child name hp => by cases hp⟩
  rcases hbranch with
    ⟨-, name, jump, w₁, u₁, -, hjump, hrelease, rfl, rfl⟩ | ⟨-, pending', exits', w₁, hends, hnext⟩
  · have hadv₁ := hw.jumpIfFalse hcheck hc hjump
    obtain ⟨hadv₂, rfl⟩ := hadv₁.coherent.release hrelease
    have hadv := hadv₁.trans hadv₂
    refine ⟨hadv, rfl, rfl, trivial, fun child name' hp => ?_⟩
    exact (htarget name' (Progress.descend.inj hp).2).mono hadv.later.heap
  · have hadv₁ : Advances cfg.catalog w w₁ := by
      rcases hends with ⟨-, -, -, rfl⟩ | ⟨-, -, exit, w₀, -, hexit, hpatch⟩
      · exact hw.refl
      · obtain ⟨hadv₀, hlands, -, -⟩ := hw.jump hexit trivial
        exact hadv₀.trans (hadv₀.coherent.patchAll hpatch hlands)
    rcases hnext with ⟨-, type, name, hrent, rfl, rfl⟩ | ⟨-, rfl, rfl, rfl⟩
    · obtain ⟨hadv₂, hname⟩ := hadv₁.coherent.rent hrent
      refine ⟨hadv₁.trans hadv₂, rfl, rfl, trivial, fun child name' hp => ?_⟩
      obtain ⟨-, hname'⟩ := Progress.descend.inj hp
      obtain rfl := Option.some.inj hname'
      exact Or.inl (Or.inl hname)
    · refine ⟨hadv₁, rfl, rfl, trivial, fun child name hp => ?_⟩
      exact (htarget name (Progress.descend.inj hp).2).mono hadv₁.later.heap

include hcheck hc in
theorem stepLoop_outcome {start : Option InstructionId} {condition : Option String}
    {exit : Option InstructionId}
    (h : Yields (Generation.stepLoop cfg t n u start condition exit) w (p, u') w')
    (hw : Coherent cfg.catalog w) (hfits : Fits cfg w u)
    (hstart : Lands w.assembly.instructions (.after start)) : Outcome cfg u w p u' w' := by
  rcases Generation.stepLoop_cases h with ⟨-, test, type, name, -, hrent, rfl, rfl⟩ |
    ⟨-, name, jump, body, w₁, u₁, -, hjump, -, hrelease, rfl, rfl⟩ |
    ⟨-, hp, back, w₁, w₂, hback, hpatch, hrelease⟩
  · -- The loop begins at the end of the code so far.
    obtain ⟨hadv, hname⟩ := hw.rent hrent
    refine ⟨hadv, rfl, rfl, hadv.later.code.lands hw.lands_last, fun child name' hp => ?_⟩
    obtain ⟨-, hname'⟩ := Progress.descend.inj hp
    obtain rfl := Option.some.inj hname'
    exact Or.inl (Or.inl hname)
  · have hadv₁ := hw.jumpIfFalse hcheck hc hjump
    obtain ⟨hadv₂, rfl⟩ := hadv₁.coherent.release hrelease
    have hadv := hadv₁.trans hadv₂
    refine ⟨hadv, rfl, rfl, hadv.later.code.lands hstart, fun child name' hp => ?_⟩
    exact (hfits.target name' (Progress.descend.inj hp).2).mono hadv.later.heap
  · obtain ⟨hadv₁, hlands, -, -⟩ := hw.jump hback hstart
    have hadv₂ := hadv₁.coherent.patchAll hpatch hlands
    obtain ⟨hadv₃, hu⟩ := hadv₂.coherent.release hrelease
    exact .finished (hadv₁.trans (hadv₂.trans hadv₃)) hfits.task (by rw [hu]) hp

/-- The parameters of an operation with a result are inputs of the call and an output. -/
theorem Operation.parameters_eq_append {op : Operation} {type : TypeId}
    (h : op.returnType? = some type) :
    ∃ init last, op.parameters = init ++ [last] ∧ last.direction = .output := by
  rcases List.eq_nil_or_concat op.parameters with hnil | ⟨init, last, hconcat⟩
  · simp [Operation.returnType?, hnil] at h
  · refine ⟨init, last, by rw [hconcat, List.concat_eq_append], ?_⟩
    by_contra hdirection
    have hreturns : op.returns = false := by
      simp [Operation.returns, hconcat, hdirection]
    simp [Operation.returnType?, Operation.arity, hreturns] at h

/-- The operands of a call may be given: the arguments have slots, and the slot for the result goes
to the last parameter, which is an output. -/
theorem Generation.CompletesArguments.ready {op : Operation} {arguments operands : List Operand}
    {u₁ : WorkUnit} {w₁ : Workspace}
    (h : CompletesArguments cfg op u w arguments operands u₁ w₁) (hw : Coherent cfg.catalog w)
    (hfits : Fits cfg w u)
    (harguments : ∀ operand ∈ arguments, ∃ name, operand = .var name ∧
      w.assembly.heap.slots.contains name = true) :
    Advances cfg.catalog w w₁ ∧ u₁ = { u with temps := u₁.temps } ∧
      (op.parameters.length = operands.length →
        ∀ x p, (Operand.var x, p) ∈ operands.zip op.parameters →
          Assignable cfg.catalog w₁.assembly.heap x ∨
            x = Catalog.returnValue ∧ p.direction = .output) := by
  have hslot : ∀ x p (ps : List Parameter), (Operand.var x, p) ∈ arguments.zip ps →
      w.assembly.heap.slots.contains x = true := by
    intro x p ps hpair
    obtain ⟨name, hname, hcontains⟩ := harguments _ (List.of_mem_zip hpair).1
    rw [Operand.var.inj hname]
    exact hcontains
  rcases h with ⟨-, rfl, rfl, rfl⟩ | ⟨type, target, htype, htarget, rfl, rfl, rfl⟩ |
    ⟨type, name, -, -, rfl, hrent, rfl⟩
  · exact ⟨hw.refl, rfl, fun _ x p hpair => Or.inl (Or.inl (hslot x p _ hpair))⟩
  · refine ⟨hw.refl, rfl, fun hlength x p hpair => ?_⟩
    obtain ⟨init, result, hparameters, hresult⟩ := Operation.parameters_eq_append htype
    rw [hparameters] at hlength hpair
    rw [List.zip_append (by simpa using hlength.symm)] at hpair
    rcases List.mem_append.mp hpair with hpair | hpair
    · exact Or.inl (Or.inl (hslot x p _ hpair))
    · obtain ⟨hx, rfl⟩ := Prod.mk.inj (List.mem_singleton.mp hpair)
      rw [Operand.var.inj hx]
      exact (hfits.target target htarget).imp_right fun h => ⟨h, hresult⟩
  · obtain ⟨hadv, hname⟩ := hw.rent hrent
    refine ⟨hadv, rfl, fun _ x p hpair => Or.inl (Or.inl ?_)⟩
    rcases List.mem_append.mp (List.of_mem_zip hpair).1 with hmem | hmem
    · obtain ⟨other, hother, hcontains⟩ := harguments _ hmem
      rw [Operand.var.inj hother]
      exact hadv.later.heap.contains hcontains
    · rw [Operand.var.inj (List.mem_singleton.mp hmem)]
      exact hname

include hcheck hc in
theorem stepCall_outcome {id : OperationId} {arguments : List Operand}
    (h : Yields (Generation.stepCall cfg t n u id arguments) w (p, u') w')
    (hw : Coherent cfg.catalog w) (hfits : Fits cfg w u) (hbacked : Backed cfg t w)
    (hcall : TaskFits cfg w u.node (.call id arguments)) : Outcome cfg u w p u' w' := by
  obtain ⟨hop, harguments⟩ := hcall
  rcases Generation.stepCall_cases h with ⟨argument, -, hargument⟩ |
    ⟨-, hp, operands, u₁, w₁, last, w₂, hcompletes, hcall, hrelease⟩
  · rcases hargument with ⟨name, ⟨-, hpassed⟩, rfl, rfl, rfl⟩ | ⟨-, type, name, hrent, rfl, rfl⟩
    · -- A variable that is handed over has been read, so it has a slot.
      refine ⟨hw.refl, rfl, rfl, ⟨hop, fun operand hoperand => ?_⟩, fun child name hp => by cases hp⟩
      rcases List.mem_append.mp hoperand with hoperand | hoperand
      · exact harguments operand hoperand
      · refine ⟨name, List.mem_singleton.mp hoperand, ?_⟩
        unfold Generation.passedVariable? at hpassed
        split at hpassed
        next hget =>
          obtain ⟨child, hchild, hname⟩ := Option.bind_eq_some_iff.mp hpassed
          rw [List.head?_eq_getElem?] at hchild
          exact hbacked argument .get hget child name hchild hname
        next => cases hpassed
    · obtain ⟨hadv, hname⟩ := hw.rent hrent
      refine ⟨hadv, rfl, rfl, ⟨hop, fun operand hoperand => ?_⟩, fun child name' hp => ?_⟩
      · rcases List.mem_append.mp hoperand with hoperand | hoperand
        · obtain ⟨other, rfl, hother⟩ := harguments operand hoperand
          exact ⟨other, rfl, hadv.later.heap.contains hother⟩
        · exact ⟨name, List.mem_singleton.mp hoperand, hname⟩
      · obtain ⟨-, hname'⟩ := Progress.descend.inj hp
        obtain rfl := Option.some.inj hname'
        exact Or.inl (Or.inl hname)
  · obtain ⟨hadv₁, hu₁, hready⟩ := hcompletes.ready hw hfits harguments
    obtain ⟨hadv₂, -⟩ := hadv₁.coherent.call hcheck hc hcall fun op' hop' hlength x p hpair => by
      obtain rfl := Option.some.inj (hop.symm.trans hop')
      exact (hready hlength x p hpair).imp_right fun ⟨hx, hp⟩ => ⟨hx, Or.inl hp⟩
    obtain ⟨hadv₃, hu⟩ := hadv₂.coherent.release hrelease
    refine .finished (hadv₁.trans (hadv₂.trans hadv₃)) hfits.task ?_ hp
    rw [hu, hu₁]

include hcheck hc in
theorem stepArrayFill_outcome {type : TypeId} {slots : Option (String × String)}
    (h : Yields (Generation.stepArrayFill cfg t n u type slots) w (p, u') w')
    (hw : Coherent cfg.catalog w) (hfits : Fits cfg w u)
    (hslots : TaskFits cfg w u.node (.arrayFill type slots)) : Outcome cfg u w p u' w' := by
  obtain ⟨slots', u₁, w₁, hfills, hends⟩ := Generation.stepArrayFill_cases h
  have hfill : Advances cfg.catalog w w₁ ∧ u₁ = { u with temps := u₁.temps } ∧
      TaskFits cfg w₁ u.node (.arrayFill type slots') := by
    rcases hfills with ⟨-, array, scratch, element, elementName, length, id, u₀, w₀, w₂, harray,
      hrent, rfl, rfl, hcall⟩ | ⟨array, scratch, index, id, rfl, rfl, rfl, hcall⟩ |
      ⟨-, rfl, rfl, rfl⟩
    · -- A target may have no slot yet: the call that makes the array then makes it, too.
      have htarget : Advances cfg.catalog w w₀ ∧ u₀ = { u with temps := u₀.temps } ∧
          Open cfg.catalog w₀.assembly.heap array := by
        rcases harray with ⟨htarget, rfl, rfl⟩ | ⟨-, hrent, rfl⟩
        · exact ⟨hw.refl, rfl, hfits.target array htarget⟩
        · obtain ⟨hadv, hname⟩ := hw.rent hrent
          exact ⟨hadv, rfl, Or.inl (Or.inl hname)⟩
      obtain ⟨hadv₀, hu₀, hopen⟩ := htarget
      obtain ⟨hadv₁, hscratch⟩ := hadv₀.coherent.rent hrent
      obtain ⟨hadv₂, hcontains⟩ := hadv₁.coherent.call hcheck hc hcall (by
        intro op _ _ x p hpair
        have hx : x = array := by
          have hmem := (List.of_mem_zip hpair).1
          simpa using hmem
        rw [hx]
        exact (hopen.mono hadv₁.later.heap).imp_right fun h => ⟨h, Or.inr rfl⟩)
      refine ⟨hadv₀.trans (hadv₁.trans hadv₂), by rw [hu₀], hcontains array (by simp), ?_⟩
      exact hadv₂.later.heap.contains hscratch
    · obtain ⟨harray, hscratch⟩ := hslots
      obtain ⟨hadv, hcontains⟩ := hw.call hcheck hc hcall (by
        intro op _ _ x p hpair
        have hmem := (List.of_mem_zip hpair).1
        obtain rfl | rfl : x = array ∨ x = scratch := by simpa using hmem
        · exact Or.inl (Or.inl harray)
        · exact Or.inl (Or.inl hscratch))
      exact ⟨hadv, rfl, hcontains array (by simp), hcontains scratch (by simp)⟩
    · exact ⟨hw.refl, rfl, trivial⟩
  obtain ⟨hadv, hu₁, htask⟩ := hfill
  rcases hends with ⟨element, array, scratch, rfl, rfl, rfl, -, rfl⟩ | ⟨hp, hrelease⟩
  · refine ⟨hadv, by rw [hu₁], by rw [hu₁], htask, fun child name hp => ?_⟩
    obtain ⟨-, hname⟩ := Progress.descend.inj hp
    obtain rfl := Option.some.inj hname
    exact Or.inl (Or.inl htask.2)
  · obtain ⟨hadv', hu⟩ := hadv.coherent.release hrelease
    refine .finished (hadv.trans hadv') hfits.task ?_ hp
    rw [hu, hu₁]

/-! ## Events

A block begins and ends at the end of a group. The value of its body goes to the variable for
results, which may always be written. -/

theorem Coherent.beginBlock (hw : Coherent cfg.catalog w) {label : String}
    (h : Yields (Generation.beginBlock label) w () w') : Advances cfg.catalog w w' := by
  obtain ⟨entry, w₁, w₂, -, ⟨-, hmodify, hlabel, hpatch⟩ | ⟨-, hmodify, rfl, hpatch⟩⟩ :=
    Generation.beginBlock_cases h
  · -- The routine starts at the end of the code so far.
    have hadv₁ := hw.modifyEntry hmodify fun entry start hstart =>
      Or.inr (Option.some.inj hstart ▸ hw.lands_last)
    have hadv₂ := hadv₁.trans (hadv₁.coherent.entryPoint hlabel)
    exact hadv₂.trans (hadv₂.coherent.patchAll hpatch (hadv₂.later.code.lands hw.lands_last))
  · have hadv₁ := hw.modifyEntry hmodify fun entry start hstart => Or.inl hstart
    exact hadv₁.trans (hadv₁.coherent.patchAll hpatch (hadv₁.later.code.lands hw.lands_last))

include hcheck hc in
theorem Coherent.endBlock (hw : Coherent cfg.catalog w) {label : String}
    (h : Yields (Generation.endBlock cfg label) w () w') : Advances cfg.catalog w w' := by
  obtain ⟨entry, w₁, -, hmodify, hends⟩ := Generation.endBlock_cases h
  have hadv₁ := hw.modifyEntry hmodify fun entry start hstart => Or.inl hstart
  rcases hends with ⟨-, id, hjump⟩ | ⟨-, jump, w₂, hjump, hchain⟩
  · exact hadv₁.trans (hadv₁.coherent.jumpIndirect hcheck hc hjump)
  · have hadv₂ := (hadv₁.coherent.jump hjump trivial).1
    refine hadv₁.trans (hadv₂.trans ?_)
    exact hadv₂.coherent.modifyEntry hchain fun entry start hstart => Or.inl hstart

include hcheck hc in
theorem stepEvent_outcome {skip : Option InstructionId}
    (h : Yields (Generation.stepEvent cfg t n u skip) w (p, u') w')
    (hw : Coherent cfg.catalog w) (htask : TaskFits cfg w u.node u.task) :
    Outcome cfg u w p u' w' := by
  obtain ⟨first, label, -, -, hcases⟩ := Generation.stepEvent_cases h
  rcases hcases with ⟨-, skip', body, w₁, hcall, hbegin, -, rfl, rfl⟩ |
    ⟨-, hp, rfl, w₁, hend, hpatch⟩
  · have hadv₁ : Advances cfg.catalog w w₁ := by
      rcases hcall with ⟨-, -, rfl⟩ | ⟨target, jump, w₀, -, -, hcall, hjump⟩
      · exact hw.refl
      · obtain ⟨hadv₀, -⟩ := hw.callEvent hcheck hcall
        exact hadv₀.trans (hadv₀.coherent.jump hjump trivial).1
    refine ⟨hadv₁.trans (hadv₁.coherent.beginBlock hbegin), rfl, rfl, trivial, fun child name hp => ?_⟩
    obtain ⟨-, hname⟩ := Progress.descend.inj hp
    exact Or.inr (Option.some.inj hname).symm
  · have hadv₁ := hw.endBlock hcheck hc hend
    have hadv₂ := hadv₁.coherent.patchAll hpatch hadv₁.coherent.lands_last
    exact .finished (hadv₁.trans hadv₂) htask rfl hp

/-! ## Units

The lemmas above put together, and what a unit starts with, which is backed by what resolution
has recorded of its node. -/

include hcheck hc in
/-- Every step of a unit that can go on keeps the invariant. -/
theorem step_outcome (h : Yields (Generation.step cfg t u) w (p, u') w')
    (hw : Coherent cfg.catalog w) (hbacked : Backed cfg t w) (hfits : Fits cfg w u) :
    Outcome cfg u w p u' w' := by
  obtain ⟨node, target, count, temps, task⟩ := u
  -- A step sees its unit with the number of steps already counted on.
  suffices hcounted : Outcome cfg ⟨node, target, count + 1, temps, task⟩ w p u' w' from
    ⟨hcounted.advances, hcounted.node, hcounted.target, hcounted.task, hcounted.descend⟩
  have hfits' : Fits cfg w ⟨node, target, count + 1, temps, task⟩ := ⟨hfits.target, hfits.task⟩
  cases task with
  | literal => exact stepLiteral_outcome hcheck h hw hfits'.task
  | get => exact stepGet_outcome hcheck h hw hfits'.task
  | set => exact stepSet_outcome hcheck h hw hfits'.task rfl hbacked
  | declare => exact stepDeclare_outcome hcheck h hw hfits'.task
  | sequence => exact stepSequence_outcome h hw hfits'
  | conditional condition pending exits =>
    exact stepConditional_outcome hcheck hc h hw hfits'.target
  | loop start condition exit => exact stepLoop_outcome hcheck hc h hw hfits' hfits'.task
  | call id arguments => exact stepCall_outcome hcheck hc h hw hfits' hbacked hfits'.task
  | cast value => exact stepCast_outcome hcheck h hw hfits'.task
  | arrayFill type slots => exact stepArrayFill_outcome hcheck hc h hw hfits' hfits'.task
  | inlineAsm => exact hfits.task.elim
  | event skip => exact stepEvent_outcome hcheck hc h hw hfits'.task
  | callEvent =>
    obtain ⟨label, -, hcall, rfl, rfl⟩ := Generation.step_callEvent_cases h
    exact .finished (hw.callEvent hcheck hcall).1 hfits'.task rfl rfl
  | typeOf type =>
    obtain ⟨hcopy, rfl, rfl⟩ := Generation.step_typeOf_cases h
    exact .finished (hw.copyToTarget hcheck hcopy) hfits'.task rfl rfl

end Steps

/-- A unit that is started can go on. -/
theorem start_fits {child : NodeId} {target : Option String}
    (h : Yields (Generation.start t child target) w u w') (hc : cfg.catalog.Indexed)
    (hasm : w.construct? child ≠ some .inlineAsm) (hbacked : Backed cfg t w)
    (htarget : ∀ name, target = some name → Open cfg.catalog w.assembly.heap name) :
    w = w' ∧ Fits cfg w u := by
  obtain ⟨rfl, construct, hconstruct, rfl⟩ := Generation.start_cases h
  refine ⟨rfl, htarget, ?_⟩
  have hmeaning := hbacked child construct hconstruct
  cases construct with
  | set => exact hconstruct
  | loop => trivial
  | inlineAsm => exact hasm hconstruct
  | call op =>
    obtain ⟨name, arguments, hresolve⟩ := hmeaning
    exact ⟨hc.operationNamed?_of_resolveOverload hresolve, fun operand hoperand => by cases hoperand⟩
  | _ => trivial

end SexprAsm
