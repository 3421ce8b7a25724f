import SexprAsm.Proofs.Generation.Steps
import SexprAsm.Proofs.Resolution.Renumbering

/-!
# Generating code under other numbers

The code of a node does not depend on the numbers of nodes. A unit of work and the one for the node
under its other number (`WorkUnit.renumber`) take their steps in lockstep, and so do two stacks of
them (`step_renumber`, `run_renumber`): they emit the same instructions, name children that
correspond, and fail alike, at nodes that correspond.

Of all that a step does only few things have to do with numbers. The others are blind to them.
-/

namespace SexprAsm

/-- The unit for the node under its other number. -/
def WorkUnit.renumber (f : NodeId → NodeId) (u : WorkUnit) : WorkUnit := { u with node := f u.node }

/-- The outcome for the node under its other number. -/
def Progress.renumber (f : NodeId → NodeId) : Progress → Progress
  | .done => .done
  | .again => .again
  | .descend child target => .descend (f child) target

namespace Generation

/-- What a step comes to, for the node under its other number. -/
def renumberOutcome (f : NodeId → NodeId) : Progress × WorkUnit → Progress × WorkUnit :=
  Prod.map (Progress.renumber f) (WorkUnit.renumber f)

variable {cfg : Setting} {t t' : Tree} {f : NodeId → NodeId} {u : WorkUnit} {n : Nat}

/-! ## What is blind to numbers

Work on the assembly, on the temporaries and on the entry points looks at no node, so it is the
same under other numbers. -/

theorem modifyEntry_blind (label : String) (g : EntryPoint → EntryPoint) :
    Blind (modifyEntry label g) :=
  .modify fun _ _ => rfl

theorem entryAt_blind (label : String) : Blind (entryAt label) := by
  refine .get_bind (fun _ _ => rfl) fun w => ?_
  split
  · exact .pure _
  · exact .throw _

theorem lastInstruction_blind : Blind lastInstruction := .get_bind (fun _ _ => rfl) fun _ => .pure _

theorem patchAll_blind (target : JumpTarget) (jumps : List InstructionId) :
    Blind (patchAll target jumps) := by
  induction jumps with
  | nil => exact .pure _
  | cons jump jumps ih => exact .bind (.emit _) fun _ => ih

theorem copyToTarget_blind (source : Operand) : Blind (copyToTarget cfg u source) := by
  unfold copyToTarget
  split
  · exact .bind (.emit _) fun _ => .pure _
  · exact .pure _

theorem finishCall_blind (entry : EntryPoint) (target : Option String) :
    Blind (finishCall cfg entry target) := by
  refine .bind (.emit _) fun _ => ?_
  split
  · exact .bind (.emit _) fun _ => .pure _
  · exact .pure _

theorem callEvent_blind (label : String) (target : Option String) :
    Blind (callEvent cfg label target) := by
  refine .get_bind (fun _ _ => rfl) fun w => ?_
  split
  · exact .throw _
  next entry _ =>
    refine .bind (.emit _) fun _ => ?_
    cases entry.bodyStart with
    | some start => exact .bind (.emit _) fun _ => finishCall_blind _ _
    | none =>
      exact .bind (.emit _) fun _ => .bind (modifyEntry_blind label _) fun _ => finishCall_blind _ _

theorem beginBlock_blind (label : String) : Blind (beginBlock label) := by
  refine .bind lastInstruction_blind fun _ => .bind (entryAt_blind label) fun entry => ?_
  split
  · exact .bind (modifyEntry_blind label _) fun _ => .bind (.emit _) fun _ => patchAll_blind _ _
  · exact .bind (modifyEntry_blind label _) fun _ => patchAll_blind _ _

theorem endBlock_blind (label : String) : Blind (endBlock cfg label) := by
  refine .bind (entryAt_blind label) fun entry => .bind (modifyEntry_blind label _) fun _ => ?_
  split
  · exact .bind (.emit _) fun _ => .pure _
  · exact .bind (.emit _) fun _ => modifyEntry_blind label _

/-! ## Parts of steps

What looks at a node looks at its tag, its children or its finding, which agree. -/

theorem childAt_renumber (h : t.Embeds t' f) (node : NodeId) (construct : String) :
    Lockstep (Workspace.Renumbered f) id f (childAt t node n construct)
      (childAt t' (f node) n construct) := by
  unfold childAt
  rw [h.children, List.getElem?_map]
  cases (t.children node)[n]? with
  | some child => exact .pure rfl
  | none => exact .throw rfl

/-- A name in the tag of a child. -/
theorem childName_renumber {α β : Type} {result : α → β} (h : t.Embeds t' f) (node : NodeId)
    (construct : String) {next : String → Compile α} {next' : String → Compile β}
    (hnext : ∀ name, Lockstep (Workspace.Renumbered f) id result (next name) (next' name)) :
    Lockstep (Workspace.Renumbered f) id result
      (do next (← Compile.nameAt t (← childAt t node n construct) construct))
      (do next' (← Compile.nameAt t' (← childAt t' (f node) n construct) construct)) :=
  .bind (childAt_renumber h node construct) fun child =>
    Resolution.nameAt_bind_renumber h child construct hnext

theorem typeAt_renumber (h : t.Embeds t' f) (node : NodeId) :
    Lockstep (Workspace.Renumbered f) id id (typeAt t node) (typeAt t' (f node)) := by
  refine .get_bind fun w w' hw => ?_
  rw [hw.nodeType?, h.tag]
  split
  · exact .pure rfl
  · exact .throw rfl

theorem release_renumber :
    Lockstep (Workspace.Renumbered f) id (WorkUnit.renumber f) (release u)
      (release (u.renumber f)) :=
  .bind (Blind.modify (Workspace.giveBackAll_unconcerned u.temps) f) fun _ => .pure rfl

theorem rent_renumber (type : TypeId) :
    Lockstep (Workspace.Renumbered f) id (Prod.map id (WorkUnit.renumber f)) (rent cfg u type)
      (rent cfg (u.renumber f) type) :=
  .bind ((Build.rent_blind type).build f) fun _ => .pure rfl

/-- A temporary of the type of a node, which may be missing. -/
theorem typeAt_rent_renumber {α β : Type} {result : α → β} (h : t.Embeds t' f) (node : NodeId)
    {next : String × WorkUnit → Compile α} {next' : String × WorkUnit → Compile β}
    (hnext : ∀ name u, Lockstep (Workspace.Renumbered f) id result (next (name, u))
      (next' (name, u.renumber f))) :
    Lockstep (Workspace.Renumbered f) id result (do next (← rent cfg u (← typeAt t node)))
      (do next' (← rent cfg (u.renumber f) (← typeAt t' (f node)))) :=
  .bind (typeAt_renumber h node) fun type => .bind (rent_renumber type) fun (name, u) =>
    hnext name u

theorem passedVariable?_renumber (h : t.Embeds t' f) {w w' : Workspace} (hw : w.Renumbered f w')
    (node : NodeId) : passedVariable? t' w' (f node) = passedVariable? t w node := by
  rw [passedVariable?, passedVariable?, hw.construct?, h.children]
  cases t.children node with
  | nil => rfl
  | cons child rest => simp only [List.map_cons, List.head?_cons, Option.bind_some, h.tag]

theorem inlineInstructions_renumber (h : t.Embeds t' f) (nodes : List NodeId) :
    inlineInstructions cfg t' (nodes.map f) = inlineInstructions cfg t nodes := by
  have hname (mnemonic : String) (node : NodeId) :
      inlineName t' mnemonic (f node) = inlineName t mnemonic node := by
    rw [inlineName, inlineName, h.children]
    cases t.children node with
    | nil => rfl
    | cons child rest => simp only [List.map_cons, List.head?_cons, Option.bind_some, h.tag]
  have haddress (mnemonic : String) (node : NodeId) :
      inlineAddress t' mnemonic (f node) = inlineAddress t mnemonic node := by
    rw [inlineAddress, inlineAddress, h.children]
    cases t.children node with
    | nil => rfl
    | cons child rest => simp only [List.map_cons, List.head?_cons, h.tag]
  induction nodes with
  | nil => rfl
  | cons node nodes ih =>
    rw [List.map_cons, inlineInstructions, inlineInstructions, ih]
    simp only [inlineInstruction, h.tag, hname, haddress]

/-- A step that ends its unit gives back what the unit holds. -/
theorem done_renumber :
    Lockstep (Workspace.Renumbered f) id (renumberOutcome f)
      (do return (Progress.done, ← release u))
      (do return (Progress.done, ← release (u.renumber f))) :=
  .bind release_renumber fun _ => .pure rfl

/-! ## Steps

One lemma for each kind of unit, put together from the parts. -/

section Steps

variable (h : t.Embeds t' f)
include h

theorem stepLiteral_renumber :
    Lockstep (Workspace.Renumbered f) id (renumberOutcome f) (stepLiteral cfg t u)
      (stepLiteral cfg t' (u.renumber f)) := by
  unfold stepLiteral
  dsimp only [WorkUnit.renumber]
  rw [h.tag]
  split
  · exact .bind (Blind.emit _ f) fun _ => .pure rfl
  · exact .bind (Blind.emit _ f) fun _ => .pure rfl

theorem stepGet_renumber :
    Lockstep (Workspace.Renumbered f) id (renumberOutcome f) (stepGet cfg t u)
      (stepGet cfg t' (u.renumber f)) := by
  refine childName_renumber h u.node _ fun name => .bind (Blind.emit _ f) fun found => ?_
  cases found with
  | none => exact .throw rfl
  | some type => exact .bind (copyToTarget_blind _ f) fun _ => .pure rfl

theorem stepSet_renumber :
    Lockstep (Workspace.Renumbered f) id (renumberOutcome f) (stepSet cfg t n u)
      (stepSet cfg t' n (u.renumber f)) := by
  refine childName_renumber h u.node _ fun name => ?_
  split
  · exact .bind (childAt_renumber h u.node _) fun _ => .pure rfl
  · exact .bind (copyToTarget_blind _ f) fun _ => done_renumber

theorem stepDeclare_renumber :
    Lockstep (Workspace.Renumbered f) id (renumberOutcome f) (stepDeclare cfg t u)
      (stepDeclare cfg t' (u.renumber f)) := by
  obtain ⟨node, target, step, temps, task⟩ := u
  cases target with
  | none => exact .pure rfl
  | some target =>
    exact childName_renumber h node _ fun name => .bind (copyToTarget_blind _ f) fun _ => .pure rfl

theorem stepSequence_renumber :
    Lockstep (Workspace.Renumbered f) id (renumberOutcome f) (stepSequence t n u)
      (stepSequence t' n (u.renumber f)) := by
  unfold stepSequence
  dsimp only [WorkUnit.renumber]
  rw [h.children, List.getElem?_map, List.length_map]
  cases (t.children u.node)[n]? with
  | some child => exact .pure rfl
  | none => exact .pure rfl

theorem takeBranch_renumber (condition : Option String) (branch : NodeId)
    (pending : Option InstructionId) (exits : List InstructionId) :
    Lockstep (Workspace.Renumbered f) id (renumberOutcome f)
      (takeBranch cfg t n u condition branch pending exits)
      (takeBranch cfg t' n (u.renumber f) condition (f branch) pending exits) := by
  have hlength : (t'.children (u.renumber f).node).length = (t.children u.node).length := by
    rw [WorkUnit.renumber, h.children, List.length_map]
  unfold takeBranch
  rw [hlength]
  split
  · exact typeAt_rent_renumber h branch fun name u => .pure rfl
  · exact .pure rfl

theorem stepConditional_renumber (condition : Option String) (pending : Option InstructionId)
    (exits : List InstructionId) :
    Lockstep (Workspace.Renumbered f) id (renumberOutcome f)
      (stepConditional cfg t n u condition pending exits)
      (stepConditional cfg t' n (u.renumber f) condition pending exits) := by
  have hbranch : (t'.children (f u.node))[n]? = (t.children u.node)[n]?.map f := by
    rw [h.children, List.getElem?_map]
  unfold stepConditional
  dsimp only [WorkUnit.renumber]
  rw [hbranch]
  cases (t.children u.node)[n]? with
  | none =>
    refine .bind (lastInstruction_blind f) fun _ => .bind (patchAll_blind _ _ f) fun _ => ?_
    exact .bind (patchAll_blind _ _ f) fun _ => .bind release_renumber fun _ => .pure rfl
  | some branch =>
    dsimp only [Option.map_some]
    split
    · cases condition with
      | none => exact .throw rfl
      | some name =>
        exact .bind (Blind.emit _ f) fun _ => .bind release_renumber fun _ => .pure rfl
    · split
      · exact takeBranch_renumber h condition branch _ _
      · exact .bind (Blind.emit _ f) fun _ => .bind (patchAll_blind _ _ f) fun _ =>
          takeBranch_renumber h condition branch _ _

theorem stepLoop_renumber (start : Option InstructionId) (condition : Option String)
    (exit : Option InstructionId) :
    Lockstep (Workspace.Renumbered f) id (renumberOutcome f)
      (stepLoop cfg t n u start condition exit)
      (stepLoop cfg t' n (u.renumber f) start condition exit) := by
  unfold stepLoop
  split
  · exact .bind (lastInstruction_blind f) fun _ => .bind (childAt_renumber h u.node _) fun test =>
      typeAt_rent_renumber h test fun name u => .pure rfl
  · cases condition with
    | none => exact .throw rfl
    | some name =>
      exact .bind (Blind.emit _ f) fun _ => .bind (childAt_renumber h u.node _) fun _ =>
        .bind release_renumber fun _ => .pure rfl
  · exact .bind (Blind.emit _ f) fun _ => .bind (patchAll_blind _ _ f) fun _ => done_renumber

omit h in
theorem placeCall_renumber (operation : String) (operands : List Operand) :
    Lockstep (Workspace.Renumbered f) id (renumberOutcome f) (placeCall cfg operation operands u)
      (placeCall cfg operation operands (u.renumber f)) :=
  .bind (Blind.emit _ f) fun _ => done_renumber

theorem stepCall_renumber (operation : OperationId) (arguments : List Operand) :
    Lockstep (Workspace.Renumbered f) id (renumberOutcome f)
      (stepCall cfg t n u operation arguments)
      (stepCall cfg t' n (u.renumber f) operation arguments) := by
  obtain ⟨node, target, step, temps, task⟩ := u
  unfold stepCall
  dsimp only [WorkUnit.renumber]
  rw [h.children, List.getElem?_map]
  cases (t.children node)[n]? with
  | some argument =>
    refine .get_bind fun w w' hw => ?_
    rw [passedVariable?_renumber h hw]
    split
    · exact .pure rfl
    · exact typeAt_rent_renumber h argument fun name u => .pure rfl
  | none =>
    dsimp only [Option.map_none]
    cases (cfg.catalog.operation operation).returnType? with
    | none => exact placeCall_renumber _ _
    | some type =>
      cases target with
      | some target => exact placeCall_renumber _ _
      | none => exact .bind (rent_renumber type) fun r => placeCall_renumber _ _

theorem stepCast_renumber (value : Option String) :
    Lockstep (Workspace.Renumbered f) id (renumberOutcome f) (stepCast cfg t n u value)
      (stepCast cfg t' n (u.renumber f) value) := by
  unfold stepCast
  split
  · exact .bind (childAt_renumber h u.node _) fun inner =>
      typeAt_rent_renumber h inner fun name u => .pure rfl
  · cases value with
    | none => exact done_renumber
    | some value => exact .bind (copyToTarget_blind _ f) fun _ => done_renumber

omit h in
/-- Only the next element is a node of the tree; what is emitted does not know the numbers. -/
theorem fillNext_renumber (children : List NodeId) (type : TypeId)
    (slots : Option (String × String)) :
    Lockstep (Workspace.Renumbered f) id (renumberOutcome f) (fillNext children n u type slots)
      (fillNext (children.map f) n (u.renumber f) type slots) := by
  unfold fillNext
  rw [List.getElem?_map]
  cases children[n]? with
  | none => exact done_renumber
  | some element =>
    cases slots with
    | none => exact done_renumber
    | some slots => exact .pure rfl

omit h in
theorem makeArray_renumber (children : List NodeId) (type : TypeId) (array : String) :
    Lockstep (Workspace.Renumbered f) id (renumberOutcome f) (makeArray cfg children u type array)
      (makeArray cfg (children.map f) (u.renumber f) type array) := by
  unfold makeArray
  rw [List.length_map]
  exact .bind (rent_renumber _) fun r => .bind (Blind.emit _ f) fun _ =>
    .bind (Blind.emit _ f) fun _ => fillNext_renumber children type _

theorem stepArrayFill_renumber (type : TypeId) (slots : Option (String × String)) :
    Lockstep (Workspace.Renumbered f) id (renumberOutcome f) (stepArrayFill cfg t n u type slots)
      (stepArrayFill cfg t' n (u.renumber f) type slots) := by
  obtain ⟨node, target, step, temps, task⟩ := u
  unfold stepArrayFill
  dsimp only [WorkUnit.renumber]
  rw [h.children]
  split
  next =>
    cases target with
    | some target => exact makeArray_renumber _ _ _
    | none => exact .bind (rent_renumber type) fun r => makeArray_renumber _ _ _
  next =>
    exact .bind (Blind.emit _ f) fun _ => .bind (Blind.emit _ f) fun _ => fillNext_renumber _ _ _
  next => exact fillNext_renumber _ _ _

theorem enterBlock_renumber (node : NodeId) (label : String) :
    Lockstep (Workspace.Renumbered f) id (renumberOutcome f) (enterBlock t node label u)
      (enterBlock t' (f node) label (u.renumber f)) :=
  .bind (beginBlock_blind label f) fun _ => .bind (childAt_renumber h node _) fun _ => .pure rfl

theorem stepEvent_renumber (skip : Option InstructionId) :
    Lockstep (Workspace.Renumbered f) id (renumberOutcome f) (stepEvent cfg t n u skip)
      (stepEvent cfg t' n (u.renumber f) skip) := by
  refine childName_renumber h u.node _ fun label => ?_
  obtain ⟨node, target, step, temps, task⟩ := u
  split
  · cases target with
    | none => exact enterBlock_renumber h node label
    | some target =>
      exact .bind (callEvent_blind label _ f) fun _ => .bind (Blind.emit _ f) fun _ =>
        enterBlock_renumber h node label
  · exact .bind (endBlock_blind label f) fun _ => .bind (lastInstruction_blind f) fun _ =>
      .bind (patchAll_blind _ _ f) fun _ => .pure rfl

/-- A unit and the one for the node under its other number step in lockstep. -/
theorem step_renumber (u : WorkUnit) :
    Lockstep (Workspace.Renumbered f) id (renumberOutcome f) (step cfg t u)
      (step cfg t' (u.renumber f)) := by
  obtain ⟨node, target, n, temps, task⟩ := u
  cases task with
  | literal => exact stepLiteral_renumber h
  | get => exact stepGet_renumber h
  | set => exact stepSet_renumber h
  | declare => exact stepDeclare_renumber h
  | sequence => exact stepSequence_renumber h
  | conditional condition pending exits => exact stepConditional_renumber h condition pending exits
  | loop start condition exit => exact stepLoop_renumber h start condition exit
  | call operation arguments => exact stepCall_renumber h operation arguments
  | cast value => exact stepCast_renumber h value
  | arrayFill type slots => exact stepArrayFill_renumber h type slots
  | inlineAsm =>
    have hinstructions : inlineInstructions cfg t' (t'.children (f node)) =
        inlineInstructions cfg t (t.children node) := by
      rw [h.children, inlineInstructions_renumber h]
    have hemit : Lockstep (Workspace.Renumbered f) id id
        (Compile.emit (inlineInstructions cfg t (t.children node)))
        (Compile.emit (inlineInstructions cfg t' (t'.children (f node)))) := by
      rw [hinstructions]
      exact Blind.emit _ f
    exact .bind hemit fun _ => .pure rfl
  | event skip => exact stepEvent_renumber h skip
  | callEvent =>
    exact Resolution.nameAt_bind_renumber h node _ fun name =>
      .bind (callEvent_blind name target f) fun _ => .pure rfl
  | typeOf type => exact .bind (copyToTarget_blind _ f) fun _ => .pure rfl

/-! ## Runs

By induction on the turns: both loops take the same step and go to nodes that correspond. -/

theorem start_renumber (node : NodeId) (target : Option String) :
    Lockstep (Workspace.Renumbered f) id (WorkUnit.renumber f) (start t node target)
      (start t' (f node) target) := by
  refine .get_bind fun w w' hw => ?_
  rw [hw.construct?, h.tag]
  split
  · exact .pure rfl
  · exact .throw rfl

/-- A stack of units and that of the units for the nodes under their other numbers run in lockstep,
also where the second one stands on units with nothing left to do. -/
theorem run_renumber {below : List WorkUnit} (hbelow : ∀ fuel, run cfg t' fuel below = pure ())
    (fuel : Nat) (stack : List WorkUnit) :
    Lockstep (Workspace.Renumbered f) (CompileError.renumber f) id (run cfg t fuel stack)
      (run cfg t' fuel (stack.map (WorkUnit.renumber f) ++ below)) := by
  induction fuel generalizing stack with
  | zero => exact .pure rfl
  | succ fuel ih =>
    cases stack with
    | nil =>
      rw [List.map_nil, List.nil_append, hbelow]
      exact .pure rfl
    | cons u rest =>
      refine .bind (Resolution.at_renumber (step_renumber h u) u.node) fun (progress, u') => ?_
      cases progress with
      | done => exact ih rest
      | again => exact ih (u' :: rest)
      | descend child target =>
        exact .bind (Resolution.at_renumber (start_renumber h child target) child) fun next =>
          ih (next :: u' :: rest)

end Steps

end Generation

end SexprAsm
