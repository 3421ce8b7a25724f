import SexprAsm.Proofs.Assembly.Unchecked
import SexprAsm.Proofs.Generation.Steps

/-!
# Generating without checks

Every step of a checked compilation is echoed without checks (`step_echoed`), and so is a whole run
of the work stack (`run_echoed`). The slots in which the two may differ are those of a given set of
loose names, and all that a step writes to is a slot already, is predefined, or is loose
(`Grounded`, `UnitGrounded`).
-/

namespace SexprAsm

open Generation

/-! ## Workspaces

What is said of assemblies that mirror each other (`Assembly.bond`) is lifted to the workspaces
around them: `Build.emit_echoed` and `Compile.emit_echoed` do so for whatever is emitted.
Findings, events and pools are the same in both, so the one operation of a workspace with
something to show is renting, which searches the heap for a name that is not taken. -/

/-- Two workspaces that differ in loose slots at most. -/
def Workspace.Mirrors (loose : String → Prop) (w w' : Workspace) : Prop :=
  ∃ a', w.assembly.Mirrors loose a' ∧ w' = { w with assembly := a' }

theorem Workspace.Mirrors.entryPoints {loose : String → Prop} {w w' : Workspace}
    (h : w.Mirrors loose w') : w'.entryPoints = w.entryPoints := by
  obtain ⟨a', -, rfl⟩ := h
  rfl

/-- What a compilation keeps: slots, findings, and the order among temporaries. -/
structure Workspace.Keeps (w w' : Workspace) : Prop where
  heap : w.assembly.heap.Extends w'.assembly.heap
  findings : w'.findings = w.findings
  pooled : w.Pooled → w'.Pooled

theorem Workspace.Keeps.refl (w : Workspace) : w.Keeps w := ⟨.refl _, rfl, id⟩

theorem Workspace.Keeps.trans {w w' w'' : Workspace} (h : w.Keeps w') (h' : w'.Keeps w'') :
    w.Keeps w'' :=
  ⟨h.heap.trans h'.heap, h'.findings.trans h.findings, h'.pooled ∘ h.pooled⟩

/-- Compilations of workspaces that mirror each other. -/
def Workspace.bond (loose : String → Prop) : Bond Workspace where
  alike := Workspace.Mirrors loose
  keeps := Workspace.Keeps
  refl := .refl
  trans _ _ _ := .trans

open Workspace

section Operations

variable {c : Catalog} {loose : String → Prop} {w w' : Workspace} {α : Type}

theorem Build.emit_echoed {act act' : Emit α} {P : α → Assembly → Prop}
    (h : w.Mirrors loose w') (hact : ∀ a', w.assembly.Mirrors loose a' →
      Echoed (Assembly.bond loose) act w.assembly act' a' P) :
    Echoed (Workspace.bond loose) (Build.emit act) w (Build.emit act') w'
      fun r w₁ => P r w₁.assembly := by
  obtain ⟨a', ha, rfl⟩ := h
  intro r w₁ hyields
  obtain ⟨a₁, hemit, rfl⟩ := Build.emit_iff.mp hyields
  obtain ⟨a₁', hemit', ha₁, hext, hP⟩ := hact a' ha r a₁ hemit
  exact ⟨_, Build.emit_iff.mpr ⟨a₁', hemit', rfl⟩, ⟨a₁', ha₁, rfl⟩,
    ⟨hext, rfl, fun hpooled => hpooled.onAssembly hext⟩, hP⟩

theorem Compile.emit_echoed {act act' : Emit α} {P : α → Assembly → Prop}
    (h : w.Mirrors loose w') (hact : ∀ a', w.assembly.Mirrors loose a' →
      Echoed (Assembly.bond loose) act w.assembly act' a' P) :
    Echoed (Workspace.bond loose) (Compile.emit act) w (Compile.emit act') w'
      fun r w₁ => P r w₁.assembly :=
  (Build.emit_echoed h hact).adaptExcept

theorem Build.firstFree_echoed (h : w.Mirrors loose w') (name : Nat → String) (tries n : Nat) :
    Echoed (Workspace.bond loose) (Build.firstFree ⟨c, true⟩ name tries n) w
      (Build.firstFree ⟨c, false⟩ name tries n) w' fun _ _ => True := by
  induction tries generalizing w w' n with
  | zero => exact .pure h trivial
  | succ tries ih =>
    intro r w₂ hyields
    simp only [Build.firstFree, Yields.bind_iff, Build.emit_iff] at hyields ⊢
    obtain ⟨found, _, ⟨a₁, htype, rfl⟩, hmatch⟩ := hyields
    obtain ⟨a', ha, rfl⟩ := h
    obtain ⟨a₁', htype', ha₁⟩ := Emit.typeOf?_mirrors ha htype
    obtain ⟨hemits, hfound, -⟩ := Emit.typeOf?_spec htype
    have hkeeps : w.Keeps { w with assembly := a₁ } :=
      ⟨hemits.heap, rfl, fun hpooled => hpooled.onAssembly hemits.heap⟩
    obtain ⟨heap₁', hheap₁, rfl⟩ := id ha₁
    -- The types may differ, but whether there is a slot does not: both find the name taken, or
    -- neither does, and only then they go on to the next number.
    cases found with
    | none =>
      obtain ⟨rfl, rfl⟩ := Yields.pure_iff.mp hmatch
      have hnone := hheap₁.get?_eq_none (by simpa using hfound.symm)
      refine ⟨_, ⟨_, _, ⟨_, htype', rfl⟩, ?_⟩, ⟨_, ha₁, rfl⟩, hkeeps, trivial⟩
      rw [hnone]
      exact Yields.pure_iff.mpr ⟨rfl, rfl⟩
    | some type =>
      obtain ⟨v, hv, -⟩ := Option.map_eq_some_iff.mp hfound.symm
      obtain ⟨v', hv'⟩ := OrderedMap.contains_iff.mp
        ((hheap₁.contains (name n)).trans (OrderedMap.contains_iff.mpr ⟨v, hv⟩))
      obtain ⟨w₂', hrest, hmirrors, hkeeps', -⟩ := ih (w := { w with assembly := a₁ })
        ⟨_, ha₁, rfl⟩ (n + 1) r w₂ hmatch
      refine ⟨w₂', ⟨_, _, ⟨_, htype', rfl⟩, ?_⟩, hmirrors, hkeeps.trans hkeeps', trivial⟩
      rw [hv']
      exact hrest

/-- Both runs rent the same temporary. -/
theorem Build.rent_echoed (h : w.Mirrors loose w') (hpooled : w.Pooled) (type : TypeId) :
    Echoed (Workspace.bond loose) (Build.rent ⟨c, true⟩ type) w (Build.rent ⟨c, false⟩ type) w'
      fun name w₁ => w₁.assembly.heap.slots.contains name = true := by
  intro name w₁ hyields
  obtain ⟨hemits, hpooled₁, hfindings, -, -, htemp, -⟩ := Build.rent_spec hyields hpooled
  suffices hmirrors : ∃ w₁', Yields (Build.rent ⟨c, false⟩ type) w' name w₁' ∧ w₁.Mirrors loose w₁' by
    obtain ⟨w₁', hyields', hmirrors⟩ := hmirrors
    exact ⟨w₁', hyields', hmirrors, ⟨hemits.heap, hfindings, fun _ => hpooled₁⟩, htemp.contains⟩
  simp only [Build.rent, Yields.bind_iff, Yields.get_iff] at hyields ⊢
  obtain ⟨_, _, ⟨rfl, rfl⟩, hyields⟩ := hyields
  -- Pools are the same in both runs, so either both take a free temporary or both make one.
  cases hfree : ((w.pools.get? type).getD {}).free with
  | cons first rest =>
    obtain ⟨a', ha, rfl⟩ := h
    simp only [hfree, Yields.bind_iff, Yields.modify_iff, Yields.pure_iff] at hyields
    obtain ⟨_, _, rfl, rfl, rfl⟩ := hyields
    refine ⟨_, ⟨_, _, ⟨rfl, rfl⟩, ?_⟩, ⟨a', ha, rfl⟩⟩
    simp only [hfree]
    rfl
  | nil =>
    simp only [hfree, Yields.bind_iff, Yields.modify_iff, Yields.pure_iff, Build.emit_iff] at hyields
    obtain ⟨tries, w₂, htries, ⟨free, serial⟩, w₃, hfirst, _, _, rfl, _, _, ⟨a₄, hdefine, rfl⟩, _, _,
      rfl, rfl, rfl⟩ := hyields
    obtain ⟨a₃, j, -, rfl, rfl, hnew, -⟩ := Build.firstFree_spec (Heap.numbered_injective _)
      (Yields.bind_iff.mpr ⟨tries, w₂, htries, hfirst⟩)
    simp only [Build.nameTries, Yields.bind_iff, Yields.get_iff, Yields.pure_iff] at htries
    obtain ⟨_, _, ⟨rfl, rfl⟩, rfl, rfl⟩ := htries
    -- The search finds the same name. It is new, so it is defined alike.
    obtain ⟨_, hfirst', ⟨a₃', ha₃, rfl⟩, -⟩ := Build.firstFree_echoed h _ _ _ _ _ hfirst
    obtain ⟨a₄', hdefine', ha₄, -⟩ :=
      Emit.define_echoed ha₃ hnew ⟨rfl, Or.inl rfl⟩ () a₄ hdefine
    obtain ⟨a', ha, rfl⟩ := h
    -- The search gives up after as many tries as there are names, which are as many in both heaps.
    have hsize : a'.heap.slots.size = w.assembly.heap.slots.size := by
      obtain ⟨heap', hheap, rfl⟩ := ha
      exact hheap.size
    refine ⟨_, ⟨_, _, ⟨rfl, rfl⟩, ?_⟩, ⟨a₄', ha₄, rfl⟩⟩
    simp only [hfree, Yields.bind_iff, Yields.modify_iff, Yields.pure_iff, Build.emit_iff,
      Build.nameTries, Yields.get_iff]
    exact ⟨_, _, ⟨_, _, ⟨rfl, rfl⟩, congrArg (· + c.predefined.size) hsize, rfl⟩, _, _, hfirst', (),
      _, rfl, (), _, ⟨a₄', hdefine', rfl⟩, (), _, rfl, rfl, rfl⟩

end Operations

/-! ## What steps rely on

An operation is only echoed if the slots that it writes to are there, predefined, or loose
(`Heap.Writable`). This is an invariant of the run, in two parts: `Grounded` holds of the
workspace and `UnitGrounded` of each unit on the stack, with what its task holds on to from one
step to the next. Slots and findings are kept, so both survive the steps of other units
(`Grounded.mono`, `UnitGrounded.mono`). -/

/-- What steps rely on: temporaries have slots, variables that are read have slots, variables that
are assigned may be written, and so may the result of an event. -/
structure Grounded (c : Catalog) (t : Tree) (loose : String → Prop) (w : Workspace) : Prop where
  pooled : w.Pooled
  passed : ∀ id name, passedVariable? t w id = some name →
    w.assembly.heap.slots.contains name = true
  assigned : ∀ id first name, w.construct? id = some .set → (t.children id)[0]? = some first →
    (t.tag first).text? = some name → w.assembly.heap.Writable c loose name
  result : c.predefined.contains Catalog.returnValue = true

/-- What a unit hands to operations may be written. -/
def TaskGrounded (c : Catalog) (t : Tree) (loose : String → Prop) (w : Workspace) (node : NodeId) :
    Task → Prop
  | .set => ∀ first name, (t.children node)[0]? = some first → (t.tag first).text? = some name →
      w.assembly.heap.Writable c loose name
  | .call _ arguments => ∀ x, .var x ∈ arguments → w.assembly.heap.Writable c loose x
  | .arrayFill _ (some (array, scratch)) =>
    w.assembly.heap.Writable c loose array ∧ w.assembly.heap.Writable c loose scratch
  | _ => True

/-- A unit whose target and arguments may be written. -/
structure UnitGrounded (c : Catalog) (t : Tree) (loose : String → Prop) (w : Workspace)
    (u : WorkUnit) : Prop where
  target : ∀ name, u.target = some name → w.assembly.heap.Writable c loose name
  task : TaskGrounded c t loose w u.node u.task

/-- The outcome of a step: the unit can go on, and so can that of a child. -/
def OutcomeGrounded (c : Catalog) (t : Tree) (loose : String → Prop) (r : Progress × WorkUnit)
    (w : Workspace) : Prop :=
  UnitGrounded c t loose w r.2 ∧ ∀ child name, r.1 = .descend child (some name) →
    w.assembly.heap.Writable c loose name

section Steps

variable {c : Catalog} {t : Tree} {loose : String → Prop} {w w' : Workspace} {u : WorkUnit} {n : Nat}

theorem Grounded.mono (h : Grounded c t loose w) (hkeeps : w.Keeps w') : Grounded c t loose w' := by
  have hconstruct : ∀ id, w'.construct? id = w.construct? id := by
    intro id
    rw [construct?, construct?, finding, finding, hkeeps.findings]
  refine ⟨hkeeps.pooled h.pooled, fun id name hname => ?_, fun id first name hid hfirst hname => ?_,
    h.result⟩
  · unfold passedVariable? at hname
    rw [hconstruct] at hname
    exact hkeeps.heap.contains (h.passed id name hname)
  · rw [hconstruct] at hid
    exact (h.assigned id first name hid hfirst hname).mono hkeeps.heap

theorem UnitGrounded.mono (h : UnitGrounded c t loose w u) (hkeeps : w.Keeps w') :
    UnitGrounded c t loose w' u := by
  obtain ⟨node, target, count, temps, task⟩ := u
  refine ⟨fun name hname => (h.target name hname).mono hkeeps.heap, ?_⟩
  have htask := h.task
  cases task with
  | set => exact fun first name hfirst hname => (htask first name hfirst hname).mono hkeeps.heap
  | call id arguments => exact fun x hx => (htask x hx).mono hkeeps.heap
  | arrayFill type slots =>
    cases slots with
    | none => trivial
    | some pair => exact ⟨htask.1.mono hkeeps.heap, htask.2.mono hkeeps.heap⟩
  | _ => trivial

/-! ## Parts of steps

One lemma for each operation that steps are put together from. Lookups in the tree and in the
findings change nothing, and say so, so that the proofs below can go on with the workspace that
they had (`rintro .. rfl`). Asking for the type of a slot is the one part whose result may
differ: only whether there is one is passed on to what follows (`typeOf?_bind_echoed`). -/

theorem childAt_echoed (h : w.Mirrors loose w') (id : NodeId) (index : Nat) (construct : String) :
    Echoed (Workspace.bond loose) (childAt t id index construct) w (childAt t id index construct) w'
      fun child w₁ => (t.children id)[index]? = some child ∧ w₁ = w := by
  unfold childAt
  cases (t.children id)[index]? with
  | none => exact .throw
  | some child => exact .pure h ⟨rfl, rfl⟩

theorem nameAt_echoed (h : w.Mirrors loose w') (id : NodeId) (construct : String) :
    Echoed (Workspace.bond loose) (Compile.nameAt t id construct) w (Compile.nameAt t id construct) w'
      fun name w₁ => (t.tag id).text? = some name ∧ w₁ = w := by
  unfold Compile.nameAt
  cases (t.tag id).text? with
  | none => exact .throw
  | some name =>
    dsimp only
    split
    next => exact .throw
    next => exact .pure h ⟨rfl, rfl⟩

theorem typeAt_echoed (h : w.Mirrors loose w') (id : NodeId) :
    Echoed (Workspace.bond loose) (typeAt t id) w (typeAt t id) w' fun _ w₁ => w₁ = w := by
  refine .get_bind ?_
  have hsame : w'.nodeType? id = w.nodeType? id := by
    obtain ⟨a', -, rfl⟩ := h
    rfl
  rw [hsame]
  cases w.nodeType? id with
  | none => exact .throw
  | some type => exact .pure h rfl

theorem lastInstruction_echoed (h : w.Mirrors loose w') :
    Echoed (Workspace.bond loose) lastInstruction w lastInstruction w' fun _ w₁ => w₁ = w := by
  refine .get_bind ?_
  have hsame : w'.assembly.last? = w.assembly.last? := by
    obtain ⟨a', ⟨heap', -, rfl⟩, rfl⟩ := h
    rfl
  rw [hsame]
  exact .pure h rfl

theorem rent_echoed (h : w.Mirrors loose w') (hpooled : w.Pooled) (u : WorkUnit) (type : TypeId) :
    Echoed (Workspace.bond loose) (rent ⟨c, true⟩ u type) w (rent ⟨c, false⟩ u type) w'
      fun r w₁ => ∃ name, r = (name, { u with temps := u.temps ++ [name] }) ∧
        w₁.assembly.heap.slots.contains name = true := by
  refine .bind (Build.rent_echoed h hpooled type).adaptExcept ?_
  intro name w₁ w₁' h₁ _ hname
  exact .pure h₁ ⟨name, rfl, hname⟩

theorem foldl_giveBack_assembly (names : List String) (w : Workspace) (a : Assembly) :
    names.foldl giveBack { w with assembly := a } = { names.foldl giveBack w with assembly := a } := by
  induction names generalizing w with
  | nil => rfl
  | cons name names ih =>
    have hgive : giveBack { w with assembly := a } name = { w.giveBack name with assembly := a } := by
      unfold giveBack
      dsimp only
      split <;> rfl
    rw [List.foldl_cons, List.foldl_cons, hgive, ih]

theorem release_echoed (h : w.Mirrors loose w') (hpooled : w.Pooled) (u : WorkUnit) :
    Echoed (Workspace.bond loose) (release u) w (release u) w'
      fun u' _ => u' = { u with temps := [] } := by
  obtain ⟨a', ha, rfl⟩ := h
  obtain ⟨hpooled', hassembly, hfindings, -⟩ := foldl_giveBack_spec hpooled u.temps
  refine .bind (Q := fun _ _ => True) (.modify ⟨a', ?_, ?_⟩ ⟨?_, hfindings, fun _ => hpooled'⟩
    trivial) ?_
  · rw [hassembly]
    exact ha
  · exact foldl_giveBack_assembly u.temps w a'
  · rw [hassembly]
    exact .refl _
  · intro _ w₁ w₁' h₁ _ _
    exact .pure h₁ rfl

theorem patchAll_echoed (h : w.Mirrors loose w') (target : JumpTarget) (jumps : List InstructionId) :
    Echoed (Workspace.bond loose) (patchAll target jumps) w (patchAll target jumps) w'
      fun _ _ => True := by
  induction jumps generalizing w w' with
  | nil => exact .pure h trivial
  | cons jump jumps ih =>
    refine .bind (Compile.emit_echoed h fun a' ha => Emit.patch_echoed ha jump target) ?_
    intro _ w₁ w₁' h₁ _ _
    exact ih h₁

theorem instruction_echoed (h : w.Mirrors loose w') (i : Instruction) :
    Echoed (Workspace.bond loose) (Compile.emit (Emit.instruction i)) w
      (Compile.emit (Emit.instruction i)) w' fun _ _ => True :=
  Compile.emit_echoed h fun _ ha => Emit.instruction_echoed ha i

theorem modifyEntry_echoed (h : w.Mirrors loose w') (label : String) (f : EntryPoint → EntryPoint) :
    Echoed (Workspace.bond loose) (modifyEntry label f) w (modifyEntry label f) w'
      fun _ _ => True := by
  obtain ⟨a', ha, rfl⟩ := h
  exact .modify ⟨a', ha, rfl⟩
    ⟨.refl _, rfl, fun hpooled => ⟨hpooled.nodup, hpooled.free, hpooled.rented⟩⟩ trivial

theorem entryAt_echoed (h : w.Mirrors loose w') (label : String) :
    Echoed (Workspace.bond loose) (entryAt label) w (entryAt label) w' fun _ _ => True := by
  refine .get_bind ?_
  rw [h.entryPoints]
  cases w.entryPoints.get? label with
  | none => exact .throw
  | some entry => exact .pure h trivial

/-- Asking for the type of a slot finds one in both runs, or in neither. -/
theorem typeOf?_bind_echoed {β : Type} {name : String} {next next' : Option TypeId → Compile β}
    {P : β → Workspace → Prop} (h : w.Mirrors loose w')
    (hnext : ∀ w₁ w₁' found found', w₁.Mirrors loose w₁' → w.Keeps w₁ →
      found'.isNone = found.isNone →
      Echoed (Workspace.bond loose) (next found) w₁ (next' found') w₁' P) :
    Echoed (Workspace.bond loose) (Compile.emit (Emit.typeOf? ⟨c, true⟩ name) >>= next) w
      (Compile.emit (Emit.typeOf? ⟨c, false⟩ name) >>= next') w' P := by
  intro r w₂ hyields
  obtain ⟨found, w₁, hemit, hrest⟩ := Yields.bind_iff.mp hyields
  obtain ⟨a₁, htype, rfl⟩ := Compile.emit_iff.mp hemit
  obtain ⟨a', ha, rfl⟩ := h
  obtain ⟨a₁', htype', ha₁⟩ := Emit.typeOf?_mirrors ha htype
  obtain ⟨hemits, hfound, -⟩ := Emit.typeOf?_spec htype
  have hkeeps : w.Keeps { w with assembly := a₁ } :=
    ⟨hemits.heap, rfl, fun hpooled => hpooled.onAssembly hemits.heap⟩
  have hsome : ((a₁'.heap.slots.get? name).map (·.type)).isNone = found.isNone := by
    obtain ⟨heap₁', hheap₁, rfl⟩ := ha₁
    have hcontains := hheap₁.contains name
    rw [hfound, Option.isNone_map, Option.isNone_map, ← Option.not_isSome, ← Option.not_isSome]
    exact congrArg not hcontains
  obtain ⟨w₂', hrest', hmirrors, hkeeps', hP⟩ :=
    hnext { w with assembly := a₁ } { w with assembly := a₁' } found _ ⟨a₁', ha₁, rfl⟩ hkeeps hsome
      r w₂ hrest
  exact ⟨w₂', Yields.bind_iff.mpr ⟨_, _, Compile.emit_iff.mpr ⟨a₁', htype', rfl⟩, hrest'⟩, hmirrors,
    hkeeps.trans hkeeps', hP⟩

/-! ## Steps

Each step is taken apart in the order of its operations, and put together again from their lemmas
(`.bind`). What they keep adds up on the way, and carries the invariant to the end, where the
outcome is one of three: the unit is done (`OutcomeGrounded.done`), or it goes on to a child,
either with its own target (`OutcomeGrounded.descend`) or with a slot of its own
(`OutcomeGrounded.descendTo`). The lemma for a task needs `hc` where it copies or calls: calls
look up parameters by the name of the operation. -/

variable (hc : c.Indexed)

include hc in
theorem copy_echoed (h : w.Mirrors loose w') (source : Operand) {target : String}
    (htarget : w.assembly.heap.Writable c loose target) :
    Echoed (Workspace.bond loose) (Compile.emit (Emit.copy ⟨c, true⟩ source target)) w
      (Compile.emit (Emit.copy ⟨c, false⟩ source target)) w'
      fun _ w₁ => w₁.assembly.heap.slots.contains target = true :=
  Compile.emit_echoed h (P := fun _ a₁ => a₁.heap.slots.contains target = true)
    fun _ ha => Emit.copy_echoed hc ha source htarget

include hc in
theorem copyToTarget_echoed (h : w.Mirrors loose w') (hu : UnitGrounded c t loose w u)
    (source : Operand) :
    Echoed (Workspace.bond loose) (copyToTarget ⟨c, true⟩ u source) w
      (copyToTarget ⟨c, false⟩ u source) w' fun _ _ => True := by
  unfold copyToTarget
  cases htarget : u.target with
  | none => exact .pure h trivial
  | some target =>
    refine .bind (copy_echoed hc h source (hu.target target htarget)) ?_
    intro _ w₁ w₁' h₁ _ _
    exact .pure h₁ trivial

/-- A unit that is done. -/
theorem OutcomeGrounded.done (hu : UnitGrounded c t loose w u) {u' : WorkUnit}
    (hsame : u' = { u with temps := u'.temps }) : OutcomeGrounded c t loose (.done, u') w := by
  rw [hsame]
  exact ⟨⟨hu.target, hu.task⟩, by simp⟩

include hc in
theorem stepLiteral_echoed (h : w.Mirrors loose w') (hu : UnitGrounded c t loose w u) :
    Echoed (Workspace.bond loose) (stepLiteral ⟨c, true⟩ t u) w (stepLiteral ⟨c, false⟩ t u) w'
      (OutcomeGrounded c t loose) := by
  unfold stepLiteral
  cases htarget : u.target with
  | none =>
    refine .bind (instruction_echoed h .nop) ?_
    intro _ w₁ w₁' h₁ hkeeps _
    exact .pure h₁ (.done (hu.mono hkeeps) rfl)
  | some target =>
    refine .bind (copy_echoed hc h _ (hu.target target htarget)) ?_
    intro _ w₁ w₁' h₁ hkeeps _
    exact .pure h₁ (.done (hu.mono hkeeps) rfl)

include hc in
theorem stepGet_echoed (h : w.Mirrors loose w') (hu : UnitGrounded c t loose w u) :
    Echoed (Workspace.bond loose) (stepGet ⟨c, true⟩ t u) w (stepGet ⟨c, false⟩ t u) w'
      (OutcomeGrounded c t loose) := by
  refine .bind (childAt_echoed h _ _ _) ?_
  rintro child _ w₁' h₁ - ⟨-, rfl⟩
  refine .bind (nameAt_echoed h₁ _ _) ?_
  rintro name _ w₂' h₂ - ⟨-, rfl⟩
  refine typeOf?_bind_echoed h₂ fun w₃ w₃' found found' h₃ hkeeps hsame => ?_
  rw [hsame]
  cases found.isNone with
  | true => exact .throw
  | false =>
    refine .bind (copyToTarget_echoed hc h₃ (hu.mono hkeeps) _) ?_
    intro _ w₄ w₄' h₄ hkeeps' _
    exact .pure h₄ (.done (hu.mono (hkeeps.trans hkeeps')) rfl)

include hc in
theorem stepDeclare_echoed (h : w.Mirrors loose w') (hu : UnitGrounded c t loose w u) :
    Echoed (Workspace.bond loose) (stepDeclare ⟨c, true⟩ t u) w (stepDeclare ⟨c, false⟩ t u) w'
      (OutcomeGrounded c t loose) := by
  unfold stepDeclare
  split
  next =>
    refine .bind (childAt_echoed h _ _ _) ?_
    rintro child _ w₁' h₁ - ⟨-, rfl⟩
    refine .bind (nameAt_echoed h₁ _ _) ?_
    rintro name _ w₂' h₂ - ⟨-, rfl⟩
    refine .bind (copyToTarget_echoed hc h₂ hu _) ?_
    intro _ w₃ w₃' h₃ hkeeps _
    exact .pure h₃ (.done (hu.mono hkeeps) rfl)
  next => exact .pure h (.done hu rfl)

include hc in
theorem stepSet_echoed (h : w.Mirrors loose w') (hw : Grounded c t loose w)
    (hu : UnitGrounded c t loose w u) (htask : u.task = .set) :
    Echoed (Workspace.bond loose) (stepSet ⟨c, true⟩ t n u) w (stepSet ⟨c, false⟩ t n u) w'
      (OutcomeGrounded c t loose) := by
  refine .bind (childAt_echoed h _ _ _) ?_
  rintro first _ w₁' h₁ - ⟨hfirst, rfl⟩
  refine .bind (nameAt_echoed h₁ _ _) ?_
  rintro name _ w₂' h₂ - ⟨hname, rfl⟩
  split
  next =>
    refine .bind (childAt_echoed h₂ _ _ _) ?_
    rintro child _ w₃' h₃ - ⟨-, rfl⟩
    refine .pure h₃ ⟨hu, fun other target hdescend => ?_⟩
    obtain ⟨-, htarget⟩ := Progress.descend.inj hdescend
    obtain rfl := Option.some.inj htarget
    have hset := hu.task
    rw [htask] at hset
    exact hset first name hfirst hname
  next =>
    refine .bind (copyToTarget_echoed hc h₂ hu _) ?_
    intro _ w₃ w₃' h₃ hkeeps _
    refine .bind (release_echoed h₃ (hkeeps.pooled hw.pooled) u) ?_
    rintro u' w₄ w₄' h₄ hkeeps' rfl
    exact .pure h₄ (.done (hu.mono (hkeeps.trans hkeeps')) rfl)

theorem stepSequence_echoed (h : w.Mirrors loose w') (hu : UnitGrounded c t loose w u) :
    Echoed (Workspace.bond loose) (stepSequence t n u) w (stepSequence t n u) w'
      (OutcomeGrounded c t loose) := by
  unfold stepSequence
  dsimp only
  split
  next child hchild =>
    refine .pure h ⟨hu, fun other target hdescend => ?_⟩
    obtain ⟨-, htarget⟩ := Progress.descend.inj hdescend
    -- Only the last child gets the target of the sequence.
    split at htarget
    next => exact hu.target target htarget
    next => cases htarget
  next => exact .pure h (.done hu rfl)

/-- A unit that goes on to a child with its own target. -/
theorem OutcomeGrounded.descend (hu : UnitGrounded c t loose w u) {u' : WorkUnit} {child : NodeId}
    (hnode : u'.node = u.node) (htarget : u'.target = u.target)
    (htask : TaskGrounded c t loose w u.node u'.task) :
    OutcomeGrounded c t loose (.descend child u.target, u') w := by
  refine ⟨⟨fun name hname => hu.target name (htarget ▸ hname), hnode ▸ htask⟩, ?_⟩
  intro other name hdescend
  exact hu.target name (Progress.descend.inj hdescend).2

/-- A unit that goes on to a child with a slot for its value. -/
theorem OutcomeGrounded.descendTo (hu : UnitGrounded c t loose w u) {u' : WorkUnit} {child : NodeId}
    {slot : String} (hslot : w.assembly.heap.Writable c loose slot) (hnode : u'.node = u.node)
    (htarget : u'.target = u.target) (htask : TaskGrounded c t loose w u.node u'.task) :
    OutcomeGrounded c t loose (.descend child (some slot), u') w := by
  refine ⟨⟨fun name hname => hu.target name (htarget ▸ hname), hnode ▸ htask⟩, ?_⟩
  intro other name hdescend
  obtain rfl := Option.some.inj (Progress.descend.inj hdescend).2
  exact hslot

/-- Whatever the branch before leaves, the next condition or the last branch follows. -/
theorem takeBranch_echoed {condition : Option String} {branch : NodeId}
    (pending : Option InstructionId) (exits : List InstructionId) (h : w.Mirrors loose w')
    (hw : Grounded c t loose w) (hu : UnitGrounded c t loose w u) :
    Echoed (Workspace.bond loose) (takeBranch ⟨c, true⟩ t n u condition branch pending exits) w
      (takeBranch ⟨c, false⟩ t n u condition branch pending exits) w'
      (OutcomeGrounded c t loose) := by
  unfold takeBranch
  split
  next =>
    refine .bind (typeAt_echoed h _) ?_
    rintro type _ w₂' h₂ - rfl
    refine .bind (rent_echoed h₂ hw.pooled u type) ?_
    rintro _ w₃ w₃' h₃ hkeeps₃ ⟨name, rfl, hname⟩
    exact .pure h₃ (.descendTo (hu.mono hkeeps₃) (Or.inl hname) rfl rfl trivial)
  next => exact .pure h (.descend hu rfl rfl trivial)

include hc in
theorem stepConditional_echoed {condition : Option String} {pending : Option InstructionId}
    {exits : List InstructionId} (h : w.Mirrors loose w') (hw : Grounded c t loose w)
    (hu : UnitGrounded c t loose w u) :
    Echoed (Workspace.bond loose) (stepConditional ⟨c, true⟩ t n u condition pending exits) w
      (stepConditional ⟨c, false⟩ t n u condition pending exits) w' (OutcomeGrounded c t loose) := by
  unfold stepConditional
  dsimp only
  cases (t.children u.node)[n]? with
  | none =>
    -- Behind the last branch, the jumps of the others get their targets.
    refine .bind (lastInstruction_echoed h) ?_
    rintro last _ w₁' h₁ - rfl
    refine .bind (patchAll_echoed h₁ _ _) ?_
    intro _ w₂ w₂' h₂ hkeeps₂ _
    refine .bind (patchAll_echoed h₂ _ _) ?_
    intro _ w₃ w₃' h₃ hkeeps₃ _
    have hkeeps := hkeeps₂.trans hkeeps₃
    refine .bind (release_echoed h₃ (hkeeps.pooled hw.pooled) u) ?_
    rintro u' w₄ w₄' h₄ hkeeps₄ rfl
    exact .pure h₄ ⟨⟨(hu.mono (hkeeps.trans hkeeps₄)).target, trivial⟩, by simp⟩
  | some branch =>
    dsimp only
    split
    next =>
      -- Between a condition and its branch.
      cases condition with
      | none => exact .throw
      | some name =>
        refine .bind (Compile.emit_echoed h fun a' ha => Emit.jumpIfFalse_echoed hc ha name _) ?_
        intro jump w₁ w₁' h₁ hkeeps₁ _
        refine .bind (release_echoed h₁ (hkeeps₁.pooled hw.pooled) u) ?_
        rintro u' w₂ w₂' h₂ hkeeps₂ rfl
        exact .pure h₂ (.descend (hu.mono (hkeeps₁.trans hkeeps₂)) rfl rfl trivial)
    next =>
      -- Before a condition, or before the branch that has none.
      split
      next => exact takeBranch_echoed pending exits h hw hu
      next =>
        refine .bind (instruction_echoed h _) ?_
        intro exit w₁ w₁' h₁ hkeeps₁ _
        refine .bind (patchAll_echoed h₁ _ _) ?_
        intro _ w₂ w₂' h₂ hkeeps₂ _
        have hkeeps := hkeeps₁.trans hkeeps₂
        exact takeBranch_echoed none (exits ++ [exit]) h₂ (hw.mono hkeeps) (hu.mono hkeeps)

include hc in
theorem stepLoop_echoed {start : Option InstructionId} {condition : Option String}
    {exit : Option InstructionId} (h : w.Mirrors loose w') (hw : Grounded c t loose w)
    (hu : UnitGrounded c t loose w u) :
    Echoed (Workspace.bond loose) (stepLoop ⟨c, true⟩ t n u start condition exit) w
      (stepLoop ⟨c, false⟩ t n u start condition exit) w' (OutcomeGrounded c t loose) := by
  unfold stepLoop
  -- Before the condition, between it and the body, and behind the body.
  rcases n with _ | _ | n
  · refine .bind (lastInstruction_echoed h) ?_
    rintro last _ w₁' h₁ - rfl
    refine .bind (childAt_echoed h₁ _ _ _) ?_
    rintro test _ w₂' h₂ - ⟨-, rfl⟩
    refine .bind (typeAt_echoed h₂ _) ?_
    rintro type _ w₃' h₃ - rfl
    refine .bind (rent_echoed h₃ hw.pooled u type) ?_
    rintro _ w₄ w₄' h₄ hkeeps₄ ⟨name, rfl, hname⟩
    exact .pure h₄ (.descendTo (hu.mono hkeeps₄) (Or.inl hname) rfl rfl trivial)
  · cases condition with
    | none => exact .throw
    | some name =>
      refine .bind (Compile.emit_echoed h fun a' ha => Emit.jumpIfFalse_echoed hc ha name _) ?_
      intro jump w₁ w₁' h₁ hkeeps₁ _
      refine .bind (childAt_echoed h₁ _ _ _) ?_
      rintro body _ w₂' h₂ - ⟨-, rfl⟩
      refine .bind (release_echoed h₂ (hkeeps₁.pooled hw.pooled) u) ?_
      rintro u' w₃ w₃' h₃ hkeeps₃ rfl
      exact .pure h₃ (.descend (hu.mono (hkeeps₁.trans hkeeps₃)) rfl rfl trivial)
  · refine .bind (instruction_echoed h _) ?_
    intro back w₁ w₁' h₁ hkeeps₁ _
    refine .bind (patchAll_echoed h₁ _ _) ?_
    intro _ w₂ w₂' h₂ hkeeps₂ _
    have hkeeps := hkeeps₁.trans hkeeps₂
    refine .bind (release_echoed h₂ (hkeeps.pooled hw.pooled) u) ?_
    rintro u' w₃ w₃' h₃ hkeeps₃ rfl
    exact .pure h₃ (.done (hu.mono (hkeeps.trans hkeeps₃)) rfl)

include hc in
theorem stepCast_echoed {value : Option String} (h : w.Mirrors loose w')
    (hw : Grounded c t loose w) (hu : UnitGrounded c t loose w u) :
    Echoed (Workspace.bond loose) (stepCast ⟨c, true⟩ t n u value) w
      (stepCast ⟨c, false⟩ t n u value) w' (OutcomeGrounded c t loose) := by
  unfold stepCast
  dsimp only
  split
  next =>
    refine .bind (childAt_echoed h _ _ _) ?_
    rintro inner _ w₁' h₁ - ⟨-, rfl⟩
    refine .bind (typeAt_echoed h₁ _) ?_
    rintro type _ w₂' h₂ - rfl
    refine .bind (rent_echoed h₂ hw.pooled u type) ?_
    rintro _ w₃ w₃' h₃ hkeeps₃ ⟨name, rfl, hname⟩
    exact .pure h₃ (.descendTo (hu.mono hkeeps₃) (Or.inl hname) rfl rfl trivial)
  next =>
    cases value with
    | none =>
      refine .bind (release_echoed h hw.pooled u) ?_
      rintro u' w₁ w₁' h₁ hkeeps₁ rfl
      exact .pure h₁ (.done (hu.mono hkeeps₁) rfl)
    | some name =>
      refine .bind (copyToTarget_echoed hc h hu _) ?_
      intro _ w₁ w₁' h₁ hkeeps₁ _
      refine .bind (release_echoed h₁ (hkeeps₁.pooled hw.pooled) u) ?_
      rintro u' w₂ w₂' h₂ hkeeps₂ rfl
      exact .pure h₂ (.done (hu.mono (hkeeps₁.trans hkeeps₂)) rfl)

include hc in
theorem placeCall_echoed (operation : String) {operands : List Operand} (u₁ : WorkUnit)
    (h : w.Mirrors loose w') (hw : Grounded c t loose w) (hu : UnitGrounded c t loose w u)
    (hoperands : ∀ x, .var x ∈ operands → w.assembly.heap.Writable c loose x)
    (hu₁ : u₁ = { u with temps := u₁.temps }) :
    Echoed (Workspace.bond loose) (placeCall ⟨c, true⟩ operation operands u₁) w
      (placeCall ⟨c, false⟩ operation operands u₁) w' (OutcomeGrounded c t loose) := by
  refine .bind (Compile.emit_echoed h fun a' ha => Emit.call_echoed hc ha hoperands) ?_
  intro _ w₁ w₁' h₁ hkeeps₁ _
  refine .bind (release_echoed h₁ (hkeeps₁.pooled hw.pooled) u₁) ?_
  rintro u' w₂ w₂' h₂ hkeeps₂ rfl
  exact .pure h₂ (.done (hu.mono (hkeeps₁.trans hkeeps₂)) (by rw [hu₁]))

include hc in
theorem stepCall_echoed {id : OperationId} {arguments : List Operand} (h : w.Mirrors loose w')
    (hw : Grounded c t loose w) (hu : UnitGrounded c t loose w u)
    (htask : u.task = .call id arguments) :
    Echoed (Workspace.bond loose) (stepCall ⟨c, true⟩ t n u id arguments) w
      (stepCall ⟨c, false⟩ t n u id arguments) w' (OutcomeGrounded c t loose) := by
  have harguments := hu.task
  rw [htask] at harguments
  -- One more argument that may be written.
  have hmore : ∀ {w₁ : Workspace} {name : String}, w.Keeps w₁ →
      w₁.assembly.heap.Writable c loose name → ∀ x, .var x ∈ arguments ++ [.var name] →
      w₁.assembly.heap.Writable c loose x := by
    intro w₁ name hkeeps hname x hx
    rcases List.mem_append.mp hx with hx | hx
    · exact (harguments x hx).mono hkeeps.heap
    · rw [Operand.var.inj (List.mem_singleton.mp hx)]
      exact hname
  unfold stepCall
  dsimp only
  cases (t.children u.node)[n]? with
  | some argument =>
    refine .get_bind ?_
    have hsame : passedVariable? t w' argument = passedVariable? t w argument := by
      obtain ⟨a', -, rfl⟩ := h
      rfl
    rw [hsame]
    -- An output that is a variable is handed over itself, and has its slot (`Grounded.passed`).
    -- Everything else is put in a temporary.
    cases hpassed : (if ((c.operation id).parameters[n]?.elim Direction.input (·.direction)) = .input
        then none else passedVariable? t w argument) with
    | some name =>
      have hname : w.assembly.heap.slots.contains name = true := by
        split at hpassed
        next => cases hpassed
        next => exact hw.passed argument name hpassed
      exact .pure h ⟨⟨hu.target, hmore (.refl w) (Or.inl hname)⟩, by simp⟩
    | none =>
      refine .bind (typeAt_echoed h _) ?_
      rintro type _ w₁' h₁ - rfl
      refine .bind (rent_echoed h₁ hw.pooled u type) ?_
      rintro _ w₂ w₂' h₂ hkeeps₂ ⟨name, rfl, hname⟩
      exact .pure h₂ (.descendTo (hu.mono hkeeps₂) (Or.inl hname) rfl rfl
        (hmore hkeeps₂ (Or.inl hname)))
  | none =>
    -- The result is put in the target, or in a temporary that no one reads.
    cases (c.operation id).returnType? with
    | none => exact placeCall_echoed hc _ u h hw hu harguments rfl
    | some type =>
      cases htarget : u.target with
      | some target =>
        exact placeCall_echoed hc _ _ h hw hu (hmore (.refl w) (hu.target target htarget)) rfl
      | none =>
        refine .bind (rent_echoed h hw.pooled u type) ?_
        rintro _ w₁ w₁' h₁ hkeeps₁ ⟨name, rfl, hname⟩
        exact placeCall_echoed hc _ _ h₁ (hw.mono hkeeps₁) (hu.mono hkeeps₁)
          (hmore hkeeps₁ (Or.inl hname)) rfl

theorem ofExcept_echoed {α : Type} (h : w.Mirrors loose w') (outcome : Except BuildError α) :
    Echoed (Workspace.bond loose) (Compile.emit (Generation.ofExcept outcome)) w
      (Compile.emit (Generation.ofExcept outcome)) w' fun _ _ => True := by
  refine Compile.emit_echoed (P := fun _ _ => True) h fun a' ha => ?_
  cases outcome with
  | error e => exact .throw
  | ok r => exact .pure ha trivial

/-- How a step of an array fill ends, in both runs: with the next element, if there is one. -/
theorem fillNext_echoed {type : TypeId} (slots : Option (String × String)) (u₁ : WorkUnit)
    {children : List NodeId} (h : w.Mirrors loose w') (hw : Grounded c t loose w)
    (hu : UnitGrounded c t loose w u) (hu₁ : u₁ = { u with temps := u₁.temps }) :
    TaskGrounded c t loose w u.node (.arrayFill type slots) →
    Echoed (Workspace.bond loose) (fillNext children n u₁ type slots) w
      (fillNext children n u₁ type slots) w' (OutcomeGrounded c t loose) := by
  intro hslots
  unfold fillNext
  have hrelease : Echoed (Workspace.bond loose) (do
        let u ← release u₁
        pure (Progress.done, u)) w (do
        let u ← release u₁
        pure (Progress.done, u)) w' (OutcomeGrounded c t loose) := by
    refine .bind (release_echoed h hw.pooled u₁) ?_
    rintro u' w₁ w₁' h₁ hkeeps₁ rfl
    exact .pure h₁ (.done (hu.mono hkeeps₁) (by rw [hu₁]))
  cases children[n]? with
  | none => exact hrelease
  | some element =>
    cases slots with
    | none => exact hrelease
    | some pair => exact .pure h (.descendTo hu hslots.2 (by rw [hu₁]) (by rw [hu₁]) hslots)

include hc in
/-- An array is made in a slot that may be written, which is there for the elements. -/
theorem makeArray_echoed {type : TypeId} {array : String} (u₁ : WorkUnit) (h : w.Mirrors loose w')
    (hw : Grounded c t loose w) (hu : UnitGrounded c t loose w u)
    (harray : w.assembly.heap.Writable c loose array) (hu₁ : u₁ = { u with temps := u₁.temps }) :
    Echoed (Workspace.bond loose) (makeArray ⟨c, true⟩ (t.children u.node) u₁ type array) w
      (makeArray ⟨c, false⟩ (t.children u.node) u₁ type array) w' (OutcomeGrounded c t loose) := by
  refine .bind (rent_echoed h hw.pooled u₁ _) ?_
  rintro _ w₂ w₂' h₂ hkeeps₂ ⟨scratch, rfl, hscratch⟩
  refine .bind (ofExcept_echoed h₂ _) ?_
  intro length w₃ w₃' h₃ hkeeps₃ _
  refine .bind (Compile.emit_echoed h₃ fun a' ha => Emit.call_echoed hc ha ?_) ?_
  · intro x hx
    obtain rfl : x = array := by simpa using hx
    exact (harray.mono hkeeps₂.heap).mono hkeeps₃.heap
  · intro _ w₄ w₄' h₄ hkeeps₄ hthere
    have hkeeps := hkeeps₂.trans (hkeeps₃.trans hkeeps₄)
    rw [pure_bind]
    refine fillNext_echoed (some (array, scratch)) { u₁ with temps := u₁.temps ++ [scratch] } h₄
      (hw.mono hkeeps) (hu.mono hkeeps) (by rw [hu₁]) ⟨?_, ?_⟩
    -- The call gives the array its slot, if it had none.
    · exact Or.inl (hthere array (by simp))
    · exact Or.inl ((hkeeps₃.trans hkeeps₄).heap.contains hscratch)

include hc in
theorem stepArrayFill_echoed {type : TypeId} {slots : Option (String × String)}
    (h : w.Mirrors loose w') (hw : Grounded c t loose w) (hu : UnitGrounded c t loose w u)
    (htask : u.task = .arrayFill type slots) :
    Echoed (Workspace.bond loose) (stepArrayFill ⟨c, true⟩ t n u type slots) w
      (stepArrayFill ⟨c, false⟩ t n u type slots) w' (OutcomeGrounded c t loose) := by
  have hslots := hu.task
  rw [htask] at hslots
  unfold stepArrayFill
  dsimp only
  split
  next =>
    -- The array is made in the target, or in a temporary of its own.
    cases htarget : u.target with
    | some target => exact makeArray_echoed hc u h hw hu (hu.target target htarget) rfl
    | none =>
      refine .bind (rent_echoed h hw.pooled u type) ?_
      rintro _ w₁ w₁' h₁ hkeeps₁ ⟨array, rfl, harray⟩
      exact makeArray_echoed hc _ h₁ (hw.mono hkeeps₁) (hu.mono hkeeps₁) (Or.inl harray) rfl
  next k array scratch =>
    -- The element before, which is in the scratch slot, is stored.
    refine .bind (ofExcept_echoed h _) ?_
    intro index w₁ w₁' h₁ hkeeps₁ _
    refine .bind (Compile.emit_echoed h₁ fun a' ha => Emit.call_echoed hc ha ?_) ?_
    · intro x hx
      have hx : x = array ∨ x = scratch := by simpa using hx
      rcases hx with rfl | rfl
      · exact hslots.1.mono hkeeps₁.heap
      · exact hslots.2.mono hkeeps₁.heap
    · intro _ w₂ w₂' h₂ hkeeps₂ _
      have hkeeps := hkeeps₁.trans hkeeps₂
      rw [pure_bind]
      exact fillNext_echoed (some (array, scratch)) u h₂ (hw.mono hkeeps) (hu.mono hkeeps) rfl
        ⟨hslots.1.mono hkeeps.heap, hslots.2.mono hkeeps.heap⟩
  next => exact fillNext_echoed none u h hw hu rfl trivial

/-! ## Events and inline assembly

Entry points are the same in both runs, so a call takes the same way in both: a jump to the body,
or one that waits for it. Return pointers are slots once an address has been copied to them,
which is what `finishCall_echoed` asks for. Inline assembly is emitted to the assembly only, and
lifted as a whole. -/

include hc in
theorem finishCall_echoed (h : w.Mirrors loose w') {entry : EntryPoint}
    (hpointer : w.assembly.heap.slots.contains entry.returnPointer = true) {target : Option String}
    (htarget : ∀ name, target = some name → w.assembly.heap.Writable c loose name) :
    Echoed (Workspace.bond loose) (finishCall ⟨c, true⟩ entry target) w
      (finishCall ⟨c, false⟩ entry target) w' fun _ _ => True := by
  refine .bind (copy_echoed hc h _ (Or.inl hpointer)) ?_
  intro _ w₁ w₁' h₁ hkeeps₁ _
  cases target with
  | none => exact .pure h₁ trivial
  | some slot =>
    refine .bind (copy_echoed hc h₁ _ ((htarget slot rfl).mono hkeeps₁.heap)) ?_
    intro _ w₂ w₂' h₂ _ _
    exact .pure h₂ trivial

include hc in
theorem callEvent_echoed (h : w.Mirrors loose w') (label : String) {target : Option String}
    (htarget : ∀ name, target = some name → w.assembly.heap.Writable c loose name) :
    Echoed (Workspace.bond loose) (callEvent ⟨c, true⟩ label target) w
      (callEvent ⟨c, false⟩ label target) w' fun _ _ => True := by
  refine .get_bind ?_
  rw [h.entryPoints]
  cases w.entryPoints.get? label with
  | none => exact .throw
  | some entry =>
    dsimp only
    refine .bind (Compile.emit_echoed
      (P := fun _ a₁ => a₁.heap.slots.contains entry.returnPointer = true) h
      fun a' ha => Emit.copyOffset_echoed hc ha _ _) ?_
    intro _ w₁ w₁' h₁ hkeeps₁ hpointer
    -- What follows the jump does not depend on where it goes.
    have hreturn : ∀ {w₂ w₂' : Workspace}, w₂.Mirrors loose w₂' → w₁.Keeps w₂ →
        Echoed (Workspace.bond loose) (finishCall ⟨c, true⟩ entry target) w₂
          (finishCall ⟨c, false⟩ entry target) w₂' fun _ _ => True :=
      fun h₂ hkeeps₂ => finishCall_echoed hc h₂ (hkeeps₂.heap.contains hpointer) fun name hname =>
        (htarget name hname).mono (hkeeps₁.trans hkeeps₂).heap
    cases entry.bodyStart with
    | some start =>
      refine .bind (instruction_echoed h₁ _) ?_
      intro _ w₂ w₂' h₂ hkeeps₂ _
      exact hreturn h₂ hkeeps₂
    | none =>
      refine .bind (instruction_echoed h₁ _) ?_
      intro jump w₂ w₂' h₂ hkeeps₂ _
      refine .bind (modifyEntry_echoed h₂ label _) ?_
      intro _ w₃ w₃' h₃ hkeeps₃ _
      exact hreturn h₃ (hkeeps₂.trans hkeeps₃)

theorem beginBlock_echoed (h : w.Mirrors loose w') (label : String) :
    Echoed (Workspace.bond loose) (beginBlock label) w (beginBlock label) w' fun _ _ => True := by
  refine .bind (lastInstruction_echoed h) ?_
  rintro last _ w₁' h₁ - rfl
  refine .bind (entryAt_echoed h₁ label) ?_
  intro entry w₂ w₂' h₂ _ _
  split
  next =>
    refine .bind (modifyEntry_echoed h₂ label _) ?_
    intro _ w₃ w₃' h₃ _ _
    refine .bind (Compile.emit_echoed h₃ fun a' ha => Emit.entryPoint_echoed ha label) ?_
    intro _ w₄ w₄' h₄ _ _
    exact patchAll_echoed h₄ _ _
  next =>
    refine .bind (modifyEntry_echoed h₂ label _) ?_
    intro _ w₃ w₃' h₃ _ _
    exact patchAll_echoed h₃ _ _

include hc in
theorem endBlock_echoed (h : w.Mirrors loose w') (label : String) :
    Echoed (Workspace.bond loose) (endBlock ⟨c, true⟩ label) w (endBlock ⟨c, false⟩ label) w'
      fun _ _ => True := by
  refine .bind (entryAt_echoed h label) ?_
  intro entry w₁ w₁' h₁ _ _
  refine .bind (modifyEntry_echoed h₁ label _) ?_
  intro _ w₂ w₂' h₂ _ _
  split
  next =>
    refine .bind (Compile.emit_echoed h₂ fun a' ha => Emit.jumpIndirect_echoed hc ha _) ?_
    intro _ w₃ w₃' h₃ _ _
    exact .pure h₃ trivial
  next =>
    refine .bind (instruction_echoed h₂ _) ?_
    intro _ w₃ w₃' h₃ _ _
    exact modifyEntry_echoed h₃ label _

/-- A block begins in the same way whether it has been called before or not. -/
theorem enterBlock_echoed (h : w.Mirrors loose w') (hw : Grounded c t loose w)
    (hu : UnitGrounded c t loose w u) (node : NodeId) (label : String) :
    Echoed (Workspace.bond loose) (enterBlock t node label u) w (enterBlock t node label u) w'
      (OutcomeGrounded c t loose) := by
  refine .bind (beginBlock_echoed h label) ?_
  intro _ w₁ w₁' h₁ hkeeps₁ _
  refine .bind (childAt_echoed h₁ _ _ _) ?_
  rintro body _ w₂' h₂ - ⟨-, rfl⟩
  have hu₁ := hu.mono hkeeps₁
  exact .pure h₂ (.descendTo hu₁ (Or.inr (Or.inl hw.result)) rfl rfl hu₁.task)

include hc in
theorem stepEvent_echoed {skip : Option InstructionId} (h : w.Mirrors loose w')
    (hw : Grounded c t loose w) (hu : UnitGrounded c t loose w u) :
    Echoed (Workspace.bond loose) (stepEvent ⟨c, true⟩ t n u skip) w
      (stepEvent ⟨c, false⟩ t n u skip) w' (OutcomeGrounded c t loose) := by
  refine .bind (childAt_echoed h _ _ _) ?_
  rintro first _ w₁' h₁ - ⟨-, rfl⟩
  refine .bind (nameAt_echoed h₁ _ _) ?_
  rintro label w₂ w₂' h₂ - ⟨-, rfl⟩
  split
  next =>
    -- In a place where its value is asked for, the block is called, and jumped over.
    cases htarget : u.target with
    | none =>
      exact enterBlock_echoed (u := { u with target := none, task := .event none }) h₂ hw
        ⟨by rintro _ ⟨⟩, trivial⟩ _ label
    | some slot =>
      have hslot : ∀ name, some slot = some name → w₂.assembly.heap.Writable c loose name :=
        fun name hname => hu.target name (htarget.trans hname)
      refine .bind (callEvent_echoed hc h₂ label hslot) ?_
      intro _ w₃ w₃' h₃ hkeeps₃ _
      refine .bind (instruction_echoed h₃ _) ?_
      intro jump w₄ w₄' h₄ hkeeps₄ _
      have hkeeps := hkeeps₃.trans hkeeps₄
      exact enterBlock_echoed (u := { u with target := some slot, task := .event (some jump) }) h₄
        (hw.mono hkeeps) ⟨fun name hname => (hslot name hname).mono hkeeps.heap, trivial⟩ _ label
  next =>
    refine .bind (endBlock_echoed hc h₂ label) ?_
    intro _ w₃ w₃' h₃ hkeeps₃ _
    refine .bind (lastInstruction_echoed h₃) ?_
    rintro last _ w₄' h₄ - rfl
    refine .bind (patchAll_echoed h₄ _ _) ?_
    intro _ w₅ w₅' h₅ hkeeps₅ _
    exact .pure h₅ (.done (hu.mono (hkeeps₃.trans hkeeps₅)) rfl)

include hc in
theorem inlineInstruction_echoed {a a' : Assembly} (h : a.Mirrors loose a') (id : NodeId) :
    Echoed (Assembly.bond loose) (inlineInstruction ⟨c, true⟩ t id) a
      (inlineInstruction ⟨c, false⟩ t id) a' fun _ _ => True := by
  -- An operation whose number is not used.
  have hlast : ∀ {a a' : Assembly} {act act' : Emit InstructionId},
      Echoed (Assembly.bond loose) act a act' a' (fun _ _ => True) →
      Echoed (Assembly.bond loose) (do let _ ← act) a (do let _ ← act') a' fun _ _ => True := by
    intro a a' act act' hact
    refine .bind hact ?_
    intro _ a₁ a₁' h₁ _ _
    exact .pure h₁ trivial
  have hofExcept : ∀ {α : Type} (outcome : Except BuildError α) (next next' : α → Emit Unit),
      (∀ r, Echoed (Assembly.bond loose) (next r) a (next' r) a' fun _ _ => True) →
      Echoed (Assembly.bond loose) (Generation.ofExcept outcome >>= next) a
        (Generation.ofExcept outcome >>= next') a' fun _ _ => True := by
    intro α outcome next next' hnext
    cases outcome with
    | error e => exact fun r a₁ hyields => (by simp [Generation.ofExcept] at hyields)
    | ok r =>
      rw [Generation.ofExcept, pure_bind, pure_bind]
      exact hnext r
  unfold inlineInstruction
  split
  next => exact .throw
  next mnemonic _ =>
    split
    next => exact hlast (Emit.instruction_echoed h _)
    next => exact hlast (Emit.instruction_echoed h _)
    next => exact hlast (Emit.instruction_echoed h _)
    next => exact hofExcept _ _ _ fun name => hlast (Emit.push_echoed hc h name)
    next => exact hofExcept _ _ _ fun address => hlast (Emit.instruction_echoed h _)
    next => exact hofExcept _ _ _ fun address => hlast (Emit.instruction_echoed h _)
    next => exact hofExcept _ _ _ fun name => hlast (Emit.jumpIndirect_echoed hc h name)
    next => exact hofExcept _ _ _ fun name => hlast (Emit.callPushed_echoed h name)
    next => exact .pure h trivial
    next => exact .throw

include hc in
theorem inlineInstructions_echoed {a a' : Assembly} (h : a.Mirrors loose a') (ids : List NodeId) :
    Echoed (Assembly.bond loose) (inlineInstructions ⟨c, true⟩ t ids) a
      (inlineInstructions ⟨c, false⟩ t ids) a' fun _ _ => True := by
  induction ids generalizing a a' with
  | nil => exact .pure h trivial
  | cons id ids ih =>
    refine .bind (inlineInstruction_echoed hc h id) ?_
    intro _ a₁ a₁' h₁ _ _
    exact ih h₁

/-! ## Runs

The steps of all tasks are put together (`step_echoed`), then all turns of the loop over the
stack (`run_echoed`), which starts at the root (`generate_echoed`). A turn adds at most the unit
of a child: it is grounded as the step has left its target writable, and by `Grounded` if it is
an assignment (`start_echoed`). -/

include hc in
/-- Each step of a checked compilation is followed without checks. -/
theorem step_echoed (h : w.Mirrors loose w') (hw : Grounded c t loose w)
    (hu : UnitGrounded c t loose w u) :
    Echoed (Workspace.bond loose) (step ⟨c, true⟩ t u) w (step ⟨c, false⟩ t u) w'
      (OutcomeGrounded c t loose) := by
  obtain ⟨node, target, count, temps, task⟩ := u
  have hu' : UnitGrounded c t loose w ⟨node, target, count + 1, temps, task⟩ := ⟨hu.target, hu.task⟩
  cases task with
  | literal => exact stepLiteral_echoed hc h hu'
  | get => exact stepGet_echoed hc h hu'
  | set => exact stepSet_echoed hc h hw hu' rfl
  | declare => exact stepDeclare_echoed hc h hu'
  | sequence => exact stepSequence_echoed h hu'
  | conditional condition pending exits => exact stepConditional_echoed hc h hw hu'
  | loop start condition exit => exact stepLoop_echoed hc h hw hu'
  | call id arguments => exact stepCall_echoed hc h hw hu' rfl
  | cast value => exact stepCast_echoed hc h hw hu'
  | arrayFill type slots => exact stepArrayFill_echoed hc h hw hu' rfl
  | event skip => exact stepEvent_echoed hc h hw hu'
  | inlineAsm =>
    refine .bind (Compile.emit_echoed h fun a' ha => inlineInstructions_echoed hc ha _) ?_
    intro _ w₁ w₁' h₁ hkeeps _
    exact .pure h₁ (.done (hu'.mono hkeeps) rfl)
  | callEvent =>
    refine .bind (nameAt_echoed h _ _) ?_
    rintro label _ w₁' h₁ - ⟨-, rfl⟩
    refine .bind (callEvent_echoed hc h₁ label hu.target) ?_
    intro _ w₂ w₂' h₂ hkeeps _
    exact .pure h₂ (.done (hu'.mono hkeeps) rfl)
  | typeOf type =>
    refine .bind (copyToTarget_echoed hc h hu' _) ?_
    intro _ w₁ w₁' h₁ hkeeps _
    exact .pure h₁ (.done (hu'.mono hkeeps) rfl)

theorem start_echoed (h : w.Mirrors loose w') (hw : Grounded c t loose w) (id : NodeId)
    {target : Option String}
    (htarget : ∀ name, target = some name → w.assembly.heap.Writable c loose name) :
    Echoed (Workspace.bond loose) (start t id target) w (start t id target) w'
      fun u w₁ => UnitGrounded c t loose w₁ u := by
  refine .get_bind ?_
  have hsame : w'.construct? id = w.construct? id := by
    obtain ⟨a', -, rfl⟩ := h
    rfl
  rw [hsame]
  cases hconstruct : w.construct? id with
  | none => exact .throw
  | some construct =>
    refine .pure h ⟨htarget, ?_⟩
    cases construct with
    | set => exact fun first name => hw.assigned id first name hconstruct
    | call op => exact by rintro _ ⟨⟩
    | _ => trivial

include hc in
/-- Each turn of the loop is followed without checks, so the whole run is. -/
theorem run_echoed (h : w.Mirrors loose w') (hw : Grounded c t loose w) {stack : List WorkUnit}
    (hstack : ∀ u ∈ stack, UnitGrounded c t loose w u) (fuel : Nat) :
    Echoed (Workspace.bond loose) (run ⟨c, true⟩ t fuel stack) w (run ⟨c, false⟩ t fuel stack) w'
      fun _ _ => True := by
  -- The induction is on the number of turns. The invariant is that the workspace is grounded, and
  -- so are all units of the stack.
  induction fuel generalizing w w' stack with
  | zero => exact .pure h trivial
  | succ fuel ih =>
    cases stack with
    | nil => exact .pure h trivial
    | cons u rest =>
      obtain ⟨hu, hrest⟩ := List.forall_mem_cons.mp hstack
      refine .bind (step_echoed hc h hw hu).adaptExcept ?_
      rintro ⟨p, u'⟩ w₁ w₁' h₁ hkeeps₁ ⟨hu', hdescend⟩
      have hrest₁ : ∀ v ∈ rest, UnitGrounded c t loose w₁ v := fun v hv => (hrest v hv).mono hkeeps₁
      cases p with
      | done => exact ih h₁ (hw.mono hkeeps₁) hrest₁
      | again => exact ih h₁ (hw.mono hkeeps₁) (List.forall_mem_cons.mpr ⟨hu', hrest₁⟩)
      | descend child target =>
        refine .bind (start_echoed h₁ (hw.mono hkeeps₁) child fun name hname =>
          hdescend child name (by rw [hname])).adaptExcept ?_
        intro next w₂ w₂' h₂ hkeeps₂ hnext
        have hmono : ∀ v, UnitGrounded c t loose w₁ v → UnitGrounded c t loose w₂ v :=
          fun v hv => hv.mono hkeeps₂
        exact ih h₂ ((hw.mono hkeeps₁).mono hkeeps₂) (List.forall_mem_cons.mpr ⟨hnext,
          List.forall_mem_cons.mpr ⟨hmono u' hu', fun v hv => hmono v (hrest₁ v hv)⟩⟩)

include hc in
theorem generate_echoed (h : w.Mirrors loose w') (hw : Grounded c t loose w) :
    Echoed (Workspace.bond loose) (generate ⟨c, true⟩ t) w (generate ⟨c, false⟩ t) w'
      fun _ _ => True := by
  refine .bind (start_echoed h hw Tree.root fun name hname => by cases hname).adaptExcept ?_
  intro first w₁ w₁' h₁ hkeeps₁ hfirst
  exact run_echoed hc h₁ (hw.mono hkeeps₁) (List.forall_mem_singleton.mpr hfirst) _

end Steps

end SexprAsm
