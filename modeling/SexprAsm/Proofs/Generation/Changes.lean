import SexprAsm.Proofs.Generation.Run
import SexprAsm.Proofs.Workspace.Changes

/-!
# What generation changes

All that generation does to a workspace is a chain of the changes of `Workspace.Change`: at every
turn of its loop, inside each step and up to the point where it fails (`generate_changes`). What
these changes keep therefore holds wherever generation comes to.
-/

namespace SexprAsm

open Relation Workspace

namespace Generation

variable {cfg : Setting} {t : Tree} {u : WorkUnit} {w w' : Workspace} {n : Nat}

/-! ## Parts of steps

Whatever a part of a step does before it fails or ends is a chain of changes. The parts that only
look at something are the empty chain. -/

theorem emit_changes {α : Type} {act : Emit α}
    (h : MadeOf (Assembly.Change cfg.catalog) act w.assembly) :
    MadeOf (Change cfg) (Compile.emit act) w :=
  .build (.emit (fun _ _ hchange => .emit ⟨_, hchange, rfl⟩) h)

theorem note_changes {f : Workspace → NameMap EntryPoint} :
    MadeOf (Change cfg) (modify fun w => { w with entryPoints := f w } : Compile Unit) w :=
  .modify (.note w (f w))

theorem nameAt_changes (id : NodeId) (construct : String) :
    MadeOf (Change cfg) (Compile.nameAt t id construct) w := by
  unfold Compile.nameAt
  split
  · exact .check _ _ _
  · exact .throw _

theorem childAt_changes (id : NodeId) (construct : String) :
    MadeOf (Change cfg) (childAt t id n construct) w := by
  unfold childAt
  split
  · exact .pure _
  · exact .throw _

/-- A name in the tag of a child. -/
theorem childName_changes {α : Type} {id : NodeId} {construct : String} {next : String → Compile α}
    (hnext : ∀ {w : Workspace} (name : String), MadeOf (Change cfg) (next name) w) :
    MadeOf (Change cfg) (do
      let name ← Compile.nameAt t (← childAt t id n construct) construct
      next name) w :=
  .bind (childAt_changes id construct) fun _ _ _ =>
    .bind (nameAt_changes _ _) fun name _ _ => hnext name

theorem typeAt_changes (id : NodeId) : MadeOf (Change cfg) (typeAt t id) w := by
  refine .bind .get fun known w' _ => ?_
  split
  · exact .pure _
  · exact .throw _

theorem lastInstruction_changes : MadeOf (Change cfg) lastInstruction w :=
  .bind .get fun _ _ _ => .pure _

theorem foldl_giveBack_proceeds (names : List String) :
    Proceeds cfg w (names.foldl giveBack w) := by
  induction names generalizing w with
  | nil => exact .refl
  | cons name names ih => exact .head (.giveBack w name) ih

theorem release_changes : MadeOf (Change cfg) (release u) w :=
  .bind (foldl_giveBack_proceeds u.temps) fun _ _ _ => .pure _

/-- Renting is one change if it succeeds; if it fails, it has looked for a name. -/
theorem rent_changes (type : TypeId) : MadeOf (Change cfg) (rent cfg u type) w := by
  refine .bind (.build ?_) fun _ _ _ => .pure _
  cases hrent : Build.rent cfg type w with
  | ok name w' =>
    unfold MadeOf
    rw [Yields.endState_eq hrent]
    exact .single (.rent hrent)
  | error e w' =>
    obtain ⟨a, pools, hchain, rfl, hfree⟩ := Build.rent_error hrent
    unfold MadeOf
    rw [endState_of_error hrent]
    refine .tail ?_ (.search (w := { w with assembly := a }) hfree)
    exact ReflTransGen.lift (fun a => ({ w with assembly := a } : Workspace))
      (fun _ _ hchange => .emit ⟨_, hchange, rfl⟩) _ _ hchain

/-- A temporary of the type of a node, which may be missing. -/
theorem typeAt_rent_changes {α : Type} {id : NodeId} {next : String × WorkUnit → Compile α}
    (hnext : ∀ {w : Workspace} r, MadeOf (Change cfg) (next r) w) :
    MadeOf (Change cfg) (do let r ← rent cfg u (← typeAt t id); next r) w :=
  .bind (typeAt_changes id) fun _ _ _ => .bind (rent_changes _) fun r _ _ => hnext r

theorem patchAll_changes (target : JumpTarget) (jumps : List InstructionId) :
    MadeOf (Change cfg) (patchAll target jumps) w := by
  induction jumps generalizing w with
  | nil => exact .pure _
  | cons jump jumps ih => exact .bind (emit_changes (Emit.patch_changes _ _)) fun _ _ _ => ih

theorem copyToTarget_changes (source : Operand) :
    MadeOf (Change cfg) (copyToTarget cfg u source) w := by
  unfold copyToTarget
  split
  · exact .bind (emit_changes (Emit.copy_changes _ _)) fun _ _ _ => .pure _
  · exact .pure _

theorem jump_changes (target : JumpTarget) :
    MadeOf (Change cfg) (Compile.emit (Emit.instruction (.jump target))) w :=
  emit_changes (Emit.instruction_changes _)

theorem finishCall_changes (entry : EntryPoint) (target : Option String) :
    MadeOf (Change cfg) (finishCall cfg entry target) w := by
  refine .bind (emit_changes (Emit.copy_changes _ _)) fun _ _ _ => ?_
  split
  · exact .bind (emit_changes (Emit.copy_changes _ _)) fun _ _ _ => .pure _
  · exact .pure _

theorem callEvent_changes (label : String) (target : Option String) :
    MadeOf (Change cfg) (callEvent cfg label target) w := by
  refine .bind .get fun known w₁ _ => ?_
  split
  · exact .throw _
  next entry _ =>
    refine .bind (emit_changes (Emit.copyOffset_changes _ _)) fun _ _ _ => ?_
    cases entry.bodyStart with
    | some start => exact .bind (jump_changes _) fun _ _ _ => finishCall_changes _ _
    | none =>
      exact .bind (jump_changes _) fun _ _ _ => .bind note_changes fun _ _ _ =>
        finishCall_changes _ _

theorem entryAt_changes (label : String) : MadeOf (Change cfg) (entryAt label) w := by
  refine .bind .get fun known w₁ _ => ?_
  split
  · exact .pure _
  · exact .throw _

theorem beginBlock_changes (label : String) : MadeOf (Change cfg) (beginBlock label) w := by
  refine .bind lastInstruction_changes fun _ _ _ => ?_
  refine .bind (entryAt_changes label) fun entry _ _ => ?_
  split
  · exact .bind note_changes fun _ _ _ =>
      .bind (emit_changes (Emit.entryPoint_changes _)) fun _ _ _ => patchAll_changes _ _
  · exact .bind note_changes fun _ _ _ => patchAll_changes _ _

theorem endBlock_changes (label : String) : MadeOf (Change cfg) (endBlock cfg label) w := by
  refine .bind (entryAt_changes label) fun entry _ _ => .bind note_changes fun _ _ _ => ?_
  split
  · exact .bind (emit_changes (Emit.jumpIndirect_changes _)) fun _ _ _ => .pure _
  · exact .bind (jump_changes _) fun _ _ _ => note_changes

theorem ofExcept_changes {α : Type} (outcome : Except BuildError α) {a : Assembly} :
    MadeOf (Assembly.Change cfg.catalog) (ofExcept outcome) a := by
  cases outcome with
  | ok r => exact .pure _
  | error e => exact .throw _

theorem inlineInstruction_changes (id : NodeId) {a : Assembly} :
    MadeOf (Assembly.Change cfg.catalog) (inlineInstruction cfg t id) a := by
  unfold inlineInstruction
  split
  · exact .throw _
  · split
    · exact .bind (Emit.instruction_changes _) fun _ _ _ => .pure _
    · exact .bind (Emit.instruction_changes _) fun _ _ _ => .pure _
    · exact .bind (Emit.instruction_changes _) fun _ _ _ => .pure _
    · exact .bind (ofExcept_changes _) fun _ _ _ => .bind (Emit.push_changes _) fun _ _ _ => .pure _
    · exact .bind (ofExcept_changes _) fun _ _ _ =>
        .bind (Emit.instruction_changes _) fun _ _ _ => .pure _
    · exact .bind (ofExcept_changes _) fun _ _ _ =>
        .bind (Emit.instruction_changes _) fun _ _ _ => .pure _
    · exact .bind (ofExcept_changes _) fun _ _ _ =>
        .bind (Emit.jumpIndirect_changes _) fun _ _ _ => .pure _
    · exact .bind (ofExcept_changes _) fun _ _ _ =>
        .bind (Emit.callPushed_changes _) fun _ _ _ => .pure _
    · exact .pure _
    · exact .throw _

theorem inlineInstructions_changes (ids : List NodeId) {a : Assembly} :
    MadeOf (Assembly.Change cfg.catalog) (inlineInstructions cfg t ids) a := by
  induction ids generalizing a with
  | nil => exact .pure _
  | cons id ids ih => exact .bind (inlineInstruction_changes id) fun _ _ _ => ih

/-! ## Steps

One lemma for each kind of unit. No case is made of success or failure, as both end a chain. -/

theorem stepLiteral_changes : MadeOf (Change cfg) (stepLiteral cfg t u) w := by
  unfold stepLiteral
  split
  · exact .bind (emit_changes (Emit.copy_changes _ _)) fun _ _ _ => .pure _
  · exact .bind (emit_changes (Emit.instruction_changes _)) fun _ _ _ => .pure _

theorem stepGet_changes : MadeOf (Change cfg) (stepGet cfg t u) w := by
  refine childName_changes fun {w} name => ?_
  refine .bind (emit_changes (Emit.typeOf?_changes name)) fun found w' _ => ?_
  split
  · exact .throw_bind _ _
  · exact .bind (copyToTarget_changes _) fun _ _ _ => .pure _

theorem stepSet_changes : MadeOf (Change cfg) (stepSet cfg t n u) w := by
  refine childName_changes fun {w} name => ?_
  split
  · exact .bind (childAt_changes _ _) fun _ _ _ => .pure _
  · exact .bind (copyToTarget_changes _) fun _ _ _ => .bind release_changes fun _ _ _ => .pure _

theorem stepDeclare_changes : MadeOf (Change cfg) (stepDeclare cfg t u) w := by
  unfold stepDeclare
  split
  · exact childName_changes fun _ => .bind (copyToTarget_changes _) fun _ _ _ => .pure _
  · exact .pure _

theorem stepSequence_changes : MadeOf (Change cfg) (stepSequence t n u) w := by
  unfold stepSequence
  dsimp only
  split <;> exact .pure _

theorem takeBranch_changes {condition : Option String} {branch : NodeId}
    {pending : Option InstructionId} {exits : List InstructionId} :
    MadeOf (Change cfg) (takeBranch cfg t n u condition branch pending exits) w := by
  unfold takeBranch
  split
  · exact typeAt_rent_changes fun r => .pure _
  · exact .pure _

theorem stepConditional_changes {condition : Option String} {pending : Option InstructionId}
    {exits : List InstructionId} :
    MadeOf (Change cfg) (stepConditional cfg t n u condition pending exits) w := by
  unfold stepConditional
  dsimp only
  split
  · exact .bind lastInstruction_changes fun _ _ _ => .bind (patchAll_changes _ _) fun _ _ _ =>
      .bind (patchAll_changes _ _) fun _ _ _ => .bind release_changes fun _ _ _ => .pure _
  next branch _ =>
    split
    · split
      · exact .throw _
      · exact .bind (emit_changes (Emit.jumpIfFalse_changes _ _)) fun _ _ _ =>
          .bind release_changes fun _ _ _ => .pure _
    · split
      · exact takeBranch_changes
      · exact .bind (jump_changes _) fun _ _ _ => .bind (patchAll_changes _ _) fun _ _ _ =>
          takeBranch_changes

theorem stepLoop_changes {start : Option InstructionId} {condition : Option String}
    {exit : Option InstructionId} :
    MadeOf (Change cfg) (stepLoop cfg t n u start condition exit) w := by
  unfold stepLoop
  split
  · exact .bind lastInstruction_changes fun _ _ _ => .bind (childAt_changes _ _) fun _ _ _ =>
      typeAt_rent_changes fun r => .pure _
  · split
    · exact .throw _
    · exact .bind (emit_changes (Emit.jumpIfFalse_changes _ _)) fun _ _ _ =>
        .bind (childAt_changes _ _) fun _ _ _ => .bind release_changes fun _ _ _ => .pure _
  · exact .bind (jump_changes _) fun _ _ _ => .bind (patchAll_changes _ _) fun _ _ _ =>
      .bind release_changes fun _ _ _ => .pure _

theorem placeCall_changes {operation : String} {operands : List Operand} :
    MadeOf (Change cfg) (placeCall cfg operation operands u) w :=
  .bind (emit_changes (Emit.call_changes _ _)) fun _ _ _ =>
    .bind release_changes fun _ _ _ => .pure _

theorem stepCall_changes {id : OperationId} {arguments : List Operand} :
    MadeOf (Change cfg) (stepCall cfg t n u id arguments) w := by
  unfold stepCall
  dsimp only
  split
  next argument _ =>
    refine .bind .get fun known _ _ => ?_
    split
    · exact .pure _
    · exact typeAt_rent_changes fun r => .pure _
  next =>
    cases (cfg.catalog.operation id).returnType? with
    | none => exact placeCall_changes
    | some type =>
      cases u.target with
      | some target => exact placeCall_changes
      | none => exact .bind (rent_changes _) fun _ _ _ => placeCall_changes

theorem stepCast_changes {value : Option String} :
    MadeOf (Change cfg) (stepCast cfg t n u value) w := by
  unfold stepCast
  split
  · exact .bind (childAt_changes _ _) fun _ _ _ => typeAt_rent_changes fun r => .pure _
  · cases value with
    | none => exact .bind release_changes fun _ _ _ => .pure _
    | some value =>
      exact .bind (copyToTarget_changes _) fun _ _ _ => .bind release_changes fun _ _ _ => .pure _

theorem fillNext_changes {children : List NodeId} {type : TypeId}
    {slots : Option (String × String)} :
    MadeOf (Change cfg) (fillNext children n u type slots) w := by
  unfold fillNext
  split
  · exact .pure _
  · exact .bind release_changes fun _ _ _ => .pure _

theorem makeArray_changes {children : List NodeId} {type : TypeId} {array : String} :
    MadeOf (Change cfg) (makeArray cfg children u type array) w :=
  .bind (rent_changes _) fun _ _ _ => .bind (emit_changes (ofExcept_changes _)) fun _ _ _ =>
    .bind (emit_changes (Emit.call_changes _ _)) fun _ _ _ => fillNext_changes

theorem stepArrayFill_changes {type : TypeId} {slots : Option (String × String)} :
    MadeOf (Change cfg) (stepArrayFill cfg t n u type slots) w := by
  unfold stepArrayFill
  dsimp only
  split
  next =>
    cases htarget : u.target with
    | some target => exact makeArray_changes
    | none => exact .bind (rent_changes _) fun _ _ _ => makeArray_changes
  next =>
    exact .bind (emit_changes (ofExcept_changes _)) fun _ _ _ =>
      .bind (emit_changes (Emit.call_changes _ _)) fun _ _ _ => fillNext_changes
  next => exact fillNext_changes

theorem enterBlock_changes {node : NodeId} {label : String} :
    MadeOf (Change cfg) (enterBlock t node label u) w :=
  .bind (beginBlock_changes label) fun _ _ _ => .bind (childAt_changes _ _) fun _ _ _ => .pure _

theorem stepEvent_changes {skip : Option InstructionId} :
    MadeOf (Change cfg) (stepEvent cfg t n u skip) w := by
  refine childName_changes fun {w} label => ?_
  split
  · cases u.target with
    | none => exact enterBlock_changes
    | some target =>
      exact .bind (callEvent_changes _ _) fun _ _ _ => .bind (jump_changes _) fun _ _ _ =>
        enterBlock_changes
  · exact .bind (endBlock_changes label) fun _ _ _ => .bind lastInstruction_changes fun _ _ _ =>
      .bind (patchAll_changes _ _) fun _ _ _ => .pure _

theorem step_changes : MadeOf (Change cfg) (step cfg t u) w := by
  obtain ⟨node, target, n, temps, task⟩ := u
  cases task with
  | literal => exact stepLiteral_changes
  | get => exact stepGet_changes
  | set => exact stepSet_changes
  | declare => exact stepDeclare_changes
  | sequence => exact stepSequence_changes
  | conditional condition pending exits => exact stepConditional_changes
  | loop start condition exit => exact stepLoop_changes
  | call id arguments => exact stepCall_changes
  | cast value => exact stepCast_changes
  | arrayFill type slots => exact stepArrayFill_changes
  | inlineAsm => exact .bind (emit_changes (inlineInstructions_changes _)) fun _ _ _ => .pure _
  | event skip => exact stepEvent_changes
  | callEvent =>
    exact .bind (nameAt_changes _ _) fun _ _ _ => .bind (callEvent_changes _ _) fun _ _ _ => .pure _
  | typeOf type => exact .bind (copyToTarget_changes _) fun _ _ _ => .pure _

/-! ## Runs

By induction on the turns of the loop. -/

theorem start_changes (id : NodeId) (target : Option String) :
    MadeOf (Change cfg) (start t id target) w := by
  refine .bind .get fun known w' _ => ?_
  split
  · exact .pure _
  · exact .throw _

theorem run_changes (fuel : Nat) (stack : List WorkUnit) :
    MadeOf (Change cfg) (run cfg t fuel stack) w := by
  induction fuel generalizing stack w with
  | zero => exact .pure _
  | succ fuel ih =>
    cases stack with
    | nil => exact .pure _
    | cons u rest =>
      refine .bind (.at step_changes) fun ⟨progress, u'⟩ w₁ _ => ?_
      cases progress with
      | done => exact ih _
      | again => exact ih _
      | descend child target => exact .bind (.at (start_changes _ _)) fun _ _ _ => ih _

/-- Generation is a chain of changes, wherever it ends. -/
theorem generate_changes (cfg : Setting) (t : Tree) (w : Workspace) :
    Proceeds cfg w (endState (generate cfg t) w) :=
  MadeOf.bind (.at (start_changes _ _)) fun _ _ _ => run_changes _ _

theorem Move.proceeds {stack stack' : List WorkUnit} (h : Move cfg t stack w stack' w') :
    Proceeds cfg w w' := by
  cases h with
  | done hstep => exact step_changes.of_yields hstep
  | again hstep => exact step_changes.of_yields hstep
  | descend hstep hstart =>
    exact (step_changes.of_yields hstep).trans ((start_changes _ _).of_yields hstart)

/-- What a run comes to comes from its start by changes. -/
theorem Reaches.proceeds {stack stack' : List WorkUnit} (h : Reaches cfg t stack w stack' w') :
    Proceeds cfg w w' := by
  induction h with
  | refl => exact .refl
  | head hmove _ ih => exact hmove.proceeds.trans ih

end Generation

end SexprAsm
