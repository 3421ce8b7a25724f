import SexprAsm.Proofs.Generation.Recursion
import SexprAsm.Proofs.Generation.Survival
import SexprAsm.Proofs.Resolution.Rule

/-!
# Faults that generation cannot have

A unit takes for granted that its node has the children and the names that its construct needs, and
that its variable is there. Resolution has checked all that, in other words and another order. So
generation fails only where a node has no construct, an event has no routine, a value has no type,
or the assembly refuses what is emitted (`Program.resolved_shapely`).

`Shapely act w` says that a step has no fault of another kind. Running one step after another keeps
it, so it is enough to look at the places where a fault of shape is raised. The conditional and the
loop raise one where they jump on a condition that they have not been given. Their conditions are
filled in the step before (`WorkUnit.Filled`).
-/

namespace SexprAsm

open Generation Workspace Resolution

/-- The fault is that a construct lacks a child, or that a name, a variable, a type or a default
value is wrong. -/
def CompileFault.isShape : CompileFault → Bool
  | .missingChild _ _ | .undeclaredVariable _ | .unknownType _ | .invalidName _ _
  | .unsupportedDefault _ => true
  | .noHandler _ | .untyped _ | .build _ => false

theorem CompileFault.isShape_eq_false {fault : CompileFault} (h : fault.isShape = false) :
    (∃ tag, fault = .noHandler tag) ∨ (∃ tag, fault = .untyped tag) ∨ ∃ e, fault = .build e := by
  cases fault with
  | noHandler tag => exact Or.inl ⟨tag, rfl⟩
  | untyped tag => exact Or.inr (Or.inl ⟨tag, rfl⟩)
  | build e => exact Or.inr (Or.inr ⟨e, rfl⟩)
  | _ => cases h

/-! ## Steps without faults of shape

To have no fault of shape is kept by sequencing (`Shapely.bind`), and the operations on
workspaces have none, as their faults are of another kind. -/

/-- A step fails with no fault of shape. -/
def Shapely {α : Type} (act : Compile α) (w : Workspace) : Prop :=
  ∀ fault w', act w = .error fault w' → fault.isShape = false

namespace Shapely

variable {α β : Type} {w : Workspace}

theorem pure (a : α) : Shapely (Pure.pure a) w := by
  intro fault w' h
  cases h

theorem throw {fault : CompileFault} (hfault : fault.isShape = false) :
    Shapely (MonadExcept.throw fault : Compile α) w := by
  intro fault' w' h
  cases h
  exact hfault

theorem bind {act : Compile α} {next : α → Compile β} (h : Shapely act w)
    (hnext : ∀ a w', Yields act w a w' → Shapely (next a) w') : Shapely (act >>= next) w := by
  intro fault w' herror
  cases hact : act w with
  | ok a w₁ =>
    rw [bind_of_yields hact] at herror
    exact hnext a w₁ hact fault w' herror
  | error e w₁ =>
    rw [bind_of_error hact] at herror
    cases herror
    exact h _ _ hact

theorem get : Shapely MonadState.get w := by
  intro fault w' h
  cases h

theorem modify (f : Workspace → Workspace) : Shapely (modify f) w := by
  intro fault w' h
  cases h

theorem build (act : Build α) : Shapely (Compile.build act) w := by
  intro fault w' h
  unfold Compile.build EStateM.adaptExcept at h
  split at h
  · cases h
    rfl
  · cases h

theorem emit (act : Emit α) : Shapely (Compile.emit act) w := build _

end Shapely

namespace Generation

variable {cfg : Setting} {t : Tree} {u : WorkUnit} {w : Workspace} {n : Nat}

/-! ## Parts of steps

A child is found if it is there (`childAt_eq`). All other parts of steps cannot have a fault of
shape, whatever the node is. -/

theorem childAt_eq {id child : NodeId} (h : (t.children id)[n]? = some child) (construct : String) :
    childAt t id n construct = pure child := by
  unfold childAt
  rw [h]

theorem typeAt_shapely (id : NodeId) : Shapely (typeAt t id) w := by
  refine .bind .get fun known w' _ => ?_
  split
  · exact .pure _
  · exact .throw rfl

theorem release_shapely : Shapely (release u) w :=
  .bind (.modify _) fun _ _ _ => .pure _

theorem rent_shapely (type : TypeId) : Shapely (rent cfg u type) w :=
  .bind (.build _) fun _ _ _ => .pure _

/-- A temporary of the type of a node, which may be missing. -/
theorem typeAt_rent_shapely {α : Type} {id : NodeId} {next : String × WorkUnit → Compile α}
    (hnext : ∀ r w', Shapely (next r) w') :
    Shapely (do let r ← rent cfg u (← typeAt t id); next r) w :=
  .bind (typeAt_shapely id) fun _ _ _ => .bind (rent_shapely _) fun r w' _ => hnext r w'

theorem patchAll_shapely (target : JumpTarget) (jumps : List InstructionId) :
    Shapely (patchAll target jumps) w := by
  induction jumps generalizing w with
  | nil => exact .pure _
  | cons jump jumps ih => exact .bind (.emit _) fun _ _ _ => ih

theorem lastInstruction_shapely : Shapely lastInstruction w := .bind .get fun _ _ _ => .pure _

theorem copyToTarget_shapely (source : Operand) : Shapely (copyToTarget cfg u source) w := by
  unfold copyToTarget
  split
  · exact .bind (.emit _) fun _ _ _ => .pure _
  · exact .pure _

theorem finishCall_shapely (entry : EntryPoint) (target : Option String) :
    Shapely (finishCall cfg entry target) w := by
  refine .bind (.emit _) fun _ _ _ => ?_
  split
  · exact .bind (.emit _) fun _ _ _ => .pure _
  · exact .pure _

theorem callEvent_shapely (label : String) (target : Option String) :
    Shapely (callEvent cfg label target) w := by
  refine .bind .get fun known w₁ _ => ?_
  split
  · exact .throw rfl
  next entry _ =>
    refine .bind (.emit _) fun _ _ _ => ?_
    cases entry.bodyStart with
    | some start => exact .bind (.emit _) fun _ _ _ => finishCall_shapely _ _
    | none =>
      exact .bind (.emit _) fun _ _ _ => .bind (.modify _) fun _ _ _ => finishCall_shapely _ _

theorem entryAt_shapely (label : String) : Shapely (entryAt label) w := by
  refine .bind .get fun known w₁ _ => ?_
  split
  · exact .pure _
  · exact .throw rfl

theorem beginBlock_shapely (label : String) : Shapely (beginBlock label) w := by
  refine .bind lastInstruction_shapely fun _ _ _ => .bind (entryAt_shapely label) fun entry _ _ => ?_
  split
  · exact .bind (.modify _) fun _ _ _ => .bind (.emit _) fun _ _ _ => patchAll_shapely _ _
  · exact .bind (.modify _) fun _ _ _ => patchAll_shapely _ _

theorem endBlock_shapely (label : String) : Shapely (endBlock cfg label) w := by
  refine .bind (entryAt_shapely label) fun entry _ _ => .bind (.modify _) fun _ _ _ => ?_
  split
  · exact .bind (.emit _) fun _ _ _ => .pure _
  · exact .bind (.emit _) fun _ _ _ => .modify _

/-! ## Steps

One lemma for each kind of unit. What it needs of the node is given by `Shaped` for its
construct, or by the number of the step, which tells that a child is there. -/

theorem stepLiteral_shapely : Shapely (stepLiteral cfg t u) w := by
  unfold stepLiteral
  split <;> exact .bind (.emit _) fun _ _ _ => .pure _

theorem stepGet_shapely (h : Shaped t u.node .get)
    (hslot : ∀ child name, (t.children u.node)[0]? = some child → (t.tag child).text? = some name →
      w.assembly.heap.slots.contains name = true) : Shapely (stepGet cfg t u) w := by
  obtain ⟨child, name, hchildren, hname⟩ := h
  have hchild : (t.children u.node)[0]? = some child := by
    rw [hchildren]
    rfl
  unfold stepGet
  rw [childAt_eq hchild, pure_bind, Compile.nameAt_eq hname, pure_bind]
  refine .bind (.emit _) fun found w' hfound => ?_
  -- The variable has a slot, so its type is found.
  have hsome : found.isNone = false := by
    obtain ⟨a, htype, -⟩ := Compile.emit_iff.mp hfound
    obtain ⟨heap, hheap, -⟩ := Emit.onHeap_iff.mp htype
    obtain ⟨v, hv⟩ := OrderedMap.contains_iff.mp
      ((Heap.typeOf?_extends hheap).contains (hslot child name hchild hname.1))
    rw [(Heap.typeOf?_ok hheap).1, hv]
    rfl
  rw [if_neg (by simp [hsome])]
  exact .bind (copyToTarget_shapely _) fun _ _ _ => .pure _

theorem stepDeclare_shapely (h : Shaped t u.node .declare) : Shapely (stepDeclare cfg t u) w := by
  obtain ⟨first, name, hfirst, hname⟩ := h
  unfold stepDeclare
  split
  · rw [childAt_eq hfirst, pure_bind, Compile.nameAt_eq hname, pure_bind]
    exact .bind (copyToTarget_shapely _) fun _ _ _ => .pure _
  · exact .pure _

theorem stepSet_shapely (h : Shaped t u.node .set) : Shapely (stepSet cfg t n u) w := by
  obtain ⟨first, second, name, hchildren, hname⟩ := h
  have hfirst : (t.children u.node)[0]? = some first := by
    rw [hchildren]
    rfl
  have hsecond : (t.children u.node)[1]? = some second := by
    rw [hchildren]
    rfl
  unfold stepSet
  rw [childAt_eq hfirst, pure_bind, Compile.nameAt_eq hname, pure_bind, childAt_eq hsecond, pure_bind]
  split
  · exact .pure _
  · exact .bind (copyToTarget_shapely _) fun _ _ _ =>
      .bind release_shapely fun _ _ _ => .pure _

theorem stepSequence_shapely : Shapely (stepSequence t n u) w := by
  unfold stepSequence
  dsimp only
  split <;> exact .pure _

theorem takeBranch_shapely {condition : Option String} {branch : NodeId}
    {pending : Option InstructionId} {exits : List InstructionId} :
    Shapely (takeBranch cfg t n u condition branch pending exits) w := by
  unfold takeBranch
  split
  · exact typeAt_rent_shapely fun r _ => .pure _
  · exact .pure _

theorem stepConditional_shapely {condition : Option String} {pending : Option InstructionId}
    {exits : List InstructionId}
    (hfilled : n % 2 = 1 → n < (t.children u.node).length → condition ≠ none) :
    Shapely (stepConditional cfg t n u condition pending exits) w := by
  unfold stepConditional
  dsimp only
  cases hbranch : (t.children u.node)[n]? with
  | none =>
    exact .bind lastInstruction_shapely fun _ _ _ => .bind (patchAll_shapely _ _) fun _ _ _ =>
      .bind (patchAll_shapely _ _) fun _ _ _ => .bind release_shapely fun _ _ _ => .pure _
  | some branch =>
    dsimp only
    split
    next hodd =>
      cases condition with
      | none => exact absurd rfl (hfilled hodd (List.getElem?_eq_some_iff.mp hbranch).1)
      | some name =>
        exact .bind (.emit _) fun _ _ _ => .bind release_shapely fun _ _ _ => .pure _
    next =>
      split
      · exact takeBranch_shapely
      · exact .bind (.emit _) fun _ _ _ => .bind (patchAll_shapely _ _) fun _ _ _ =>
          takeBranch_shapely

theorem stepLoop_shapely {start : Option InstructionId} {condition : Option String}
    {exit : Option InstructionId} (h : Shaped t u.node .loop)
    (hfilled : n = 1 → condition ≠ none) :
    Shapely (stepLoop cfg t n u start condition exit) w := by
  obtain ⟨test, body, hchildren⟩ := List.length_eq_two.mp h
  have htest : (t.children u.node)[0]? = some test := by
    rw [hchildren]
    rfl
  have hbody : (t.children u.node)[1]? = some body := by
    rw [hchildren]
    rfl
  unfold stepLoop
  rcases n with _ | _ | n
  · refine .bind lastInstruction_shapely fun _ _ _ => ?_
    rw [childAt_eq htest, pure_bind]
    exact typeAt_rent_shapely fun r _ => .pure _
  · cases condition with
    | none => exact absurd rfl (hfilled rfl)
    | some name =>
      refine .bind (.emit _) fun _ _ _ => ?_
      rw [childAt_eq hbody, pure_bind]
      exact .bind release_shapely fun _ _ _ => .pure _
  · exact .bind (.emit _) fun _ _ _ => .bind (patchAll_shapely _ _) fun _ _ _ =>
      .bind release_shapely fun _ _ _ => .pure _

theorem placeCall_shapely {operation : String} {operands : List Operand} :
    Shapely (placeCall cfg operation operands u) w :=
  .bind (.emit _) fun _ _ _ => .bind release_shapely fun _ _ _ => .pure _

theorem stepCall_shapely {id : OperationId} {arguments : List Operand} :
    Shapely (stepCall cfg t n u id arguments) w := by
  unfold stepCall
  dsimp only
  split
  next argument _ =>
    refine .bind .get fun known _ _ => ?_
    split
    · exact .pure _
    · exact typeAt_rent_shapely fun r _ => .pure _
  next =>
    cases (cfg.catalog.operation id).returnType? with
    | none => exact placeCall_shapely
    | some type =>
      cases u.target with
      | some target => exact placeCall_shapely
      | none => exact .bind (rent_shapely _) fun _ _ _ => placeCall_shapely

theorem stepCast_shapely {type : TypeId} {value : Option String} (h : Shaped t u.node (.cast type)) :
    Shapely (stepCast cfg t n u value) w := by
  obtain ⟨inner, hchildren⟩ := List.length_eq_one_iff.mp h
  have hinner : (t.children u.node)[0]? = some inner := by
    rw [hchildren]
    rfl
  unfold stepCast
  split
  · rw [childAt_eq hinner, pure_bind]
    exact typeAt_rent_shapely fun r _ => .pure _
  · cases value with
    | none => exact .bind release_shapely fun _ _ _ => .pure _
    | some value =>
      exact .bind (copyToTarget_shapely _) fun _ _ _ => .bind release_shapely fun _ _ _ => .pure _

theorem fillNext_shapely {children : List NodeId} {type : TypeId}
    {slots : Option (String × String)} : Shapely (fillNext children n u type slots) w := by
  unfold fillNext
  split
  · exact .pure _
  · exact .bind release_shapely fun _ _ _ => .pure _

theorem makeArray_shapely {children : List NodeId} {type : TypeId} {array : String} :
    Shapely (makeArray cfg children u type array) w :=
  .bind (rent_shapely _) fun _ _ _ => .bind (.emit _) fun _ _ _ => .bind (.emit _) fun _ _ _ =>
    fillNext_shapely

theorem stepArrayFill_shapely {type : TypeId} {slots : Option (String × String)} :
    Shapely (stepArrayFill cfg t n u type slots) w := by
  unfold stepArrayFill
  dsimp only
  split
  next =>
    cases u.target with
    | some target => exact makeArray_shapely
    | none => exact .bind (rent_shapely _) fun _ _ _ => makeArray_shapely
  next => exact .bind (.emit _) fun _ _ _ => .bind (.emit _) fun _ _ _ => fillNext_shapely
  next => exact fillNext_shapely

theorem enterBlock_shapely {node body : NodeId} {label : String}
    (hbody : (t.children node)[1]? = some body) : Shapely (enterBlock t node label u) w := by
  refine .bind (beginBlock_shapely label) fun _ _ _ => ?_
  rw [childAt_eq hbody, pure_bind]
  exact .pure _

theorem stepEvent_shapely {skip : Option InstructionId} (h : Shaped t u.node .event) :
    Shapely (stepEvent cfg t n u skip) w := by
  obtain ⟨first, body, label, hchildren, hlabel⟩ := h
  have hfirst : (t.children u.node)[0]? = some first := by
    rw [hchildren]
    rfl
  have hbody : (t.children u.node)[1]? = some body := by
    rw [hchildren]
    rfl
  unfold stepEvent
  rw [childAt_eq hfirst, pure_bind, Compile.nameAt_eq hlabel, pure_bind]
  split
  · cases u.target with
    | none => exact enterBlock_shapely hbody
    | some target =>
      exact .bind (callEvent_shapely _ _) fun _ _ _ => .bind (.emit _) fun _ _ _ =>
        enterBlock_shapely hbody
  · exact .bind (endBlock_shapely label) fun _ _ _ => .bind lastInstruction_shapely fun _ _ _ =>
      .bind (patchAll_shapely _ _) fun _ _ _ => .pure _

end Generation

/-! ## Units

A jump on a condition needs the slot of the condition, which an earlier step has put in the task.
So the invariant has a part about tasks (`WorkUnit.Filled`) besides the one about nodes, which
resolution has checked. -/

/-- A conditional and a loop have the slot of their condition when they come to jump on it. -/
def WorkUnit.Filled (t : Tree) (u : WorkUnit) : Prop :=
  match u.task with
  | .conditional condition _ _ =>
    u.step % 2 = 1 → u.step < (t.children u.node).length → condition ≠ none
  | .loop _ condition _ => u.step = 1 → condition ≠ none
  | _ => True

/-- A unit does what resolution has found for its node, and its condition is there in time. -/
structure WorkUnit.Apt (t : Tree) (before : Workspace) (u : WorkUnit) : Prop where
  construct : ∃ construct, before.construct? u.node = some construct ∧
    u.task.initial = .ofConstruct construct
  filled : u.Filled t

section Units

variable {cfg : Setting} {t : Tree} {u u' : WorkUnit} {before w w' : Workspace} {p : Progress}
  {stack stack' rest : List WorkUnit}

/-- The step before a jump fills the condition that it jumps on. -/
theorem step_filled (h : Yields (step cfg t u) w (p, u') w') : u'.Filled t := by
  obtain ⟨hnode, hcount, hinitial, -⟩ := step_counts h
  obtain ⟨node, target, n, temps, task⟩ := u
  dsimp only at hnode hcount hinitial
  unfold WorkUnit.Filled
  rw [hnode, hcount]
  cases task with
  | conditional condition pending exits =>
    rcases stepConditional_cases h with ⟨hend, rfl, w₁, w₂, u₁, -, -, hrelease, rfl⟩ |
      ⟨branch, -, ⟨hodd, name, jump, w₁, u₁, -, -, hrelease, rfl, rfl⟩ |
        ⟨-, pending', exits', w₁, -, ⟨-, type, name, -, rfl, rfl⟩ | ⟨hlast, -, rfl, rfl⟩⟩⟩
    · -- There is no branch left.
      have hle := List.getElem?_eq_none_iff.mp hend
      exact fun _ hlt => by dsimp only at hle; omega
    · exact fun hodd' => by dsimp only at hodd; omega
    · exact fun _ _ => Option.some_ne_none name
    · exact fun _ hlt => by dsimp only at hlast; omega
  | loop start condition exit =>
    rcases stepLoop_cases h with ⟨rfl, test, type, name, -, -, rfl, rfl⟩ |
      ⟨rfl, name, jump, body, w₁, u₁, -, -, -, hrelease, rfl, rfl⟩ |
      ⟨hn, rfl, back, w₁, w₂, -, -, hrelease⟩
    · exact fun _ => Option.some_ne_none name
    · exact fun hone => by omega
    · obtain ⟨rfl, -⟩ := release_cases hrelease
      exact fun hone => by dsimp only at hn; omega
  | _ =>
    -- A unit of another kind stays of that kind.
    cases htask : u'.task with
    | conditional => rw [htask] at hinitial; cases hinitial
    | loop => rw [htask] at hinitial; cases hinitial
    | _ => trivial

theorem WorkUnit.Apt.step (hu : u.Apt t before)
    (h : Yields (Generation.step cfg t u) w (p, u') w') : u'.Apt t before := by
  obtain ⟨construct, hconstruct, htask⟩ := hu.construct
  obtain ⟨hnode, -, hinitial, -⟩ := step_counts h
  exact ⟨⟨construct, hnode ▸ hconstruct, hinitial.trans htask⟩, step_filled h⟩

theorem WorkUnit.Apt.start {child : NodeId} {target : Option String}
    (h : Yields (Generation.start t child target) w u w') (hfindings : w.findings = before.findings) :
    u.Apt t before := by
  obtain ⟨-, construct, hconstruct, rfl⟩ := start_cases h
  refine ⟨⟨construct, ?_, Task.initial_ofConstruct construct⟩, ?_⟩
  · rw [← hconstruct, construct?, construct?, finding, finding, hfindings]
  · cases construct with
    | conditional => exact fun hodd => absurd (show 0 % 2 = 1 from hodd) (by decide)
    | loop => exact fun hone => absurd (show 0 = 1 from hone) (by decide)
    | _ => trivial

/-- A step of a unit has no fault of shape. -/
theorem WorkUnit.Apt.shapely (hu : u.Apt t before) (hresolved : Program.resolved cfg t = .ok before)
    (hlater : before.Later w) : Shapely (Generation.step cfg t u) w := by
  obtain ⟨construct, hconstruct, hinitial⟩ := hu.construct
  have hshaped := Program.resolved_shaped hresolved hconstruct
  have hmeaning := (Program.resolved_prepared hresolved).meaning u.node construct hconstruct
  have hfilled := hu.filled
  obtain ⟨node, target, n, temps, task⟩ := u
  dsimp only at hinitial hshaped hmeaning
  cases task with
  | literal => exact stepLiteral_shapely
  | get =>
    cases construct with
    | get =>
      exact stepGet_shapely hshaped fun child name hchild hname =>
        hlater.heap.contains (hmeaning child name hchild hname)
    | _ => cases hinitial
  | set =>
    cases construct with
    | set => exact stepSet_shapely hshaped
    | _ => cases hinitial
  | declare =>
    cases construct with
    | declare => exact stepDeclare_shapely hshaped
    | _ => cases hinitial
  | sequence => exact stepSequence_shapely
  | conditional condition pending exits => exact stepConditional_shapely hfilled
  | loop start condition exit =>
    cases construct with
    | loop => exact stepLoop_shapely hshaped hfilled
    | _ => cases hinitial
  | call id arguments => exact stepCall_shapely
  | cast value =>
    cases construct with
    | cast type => exact stepCast_shapely hshaped
    | _ => cases hinitial
  | arrayFill type slots => exact stepArrayFill_shapely
  | inlineAsm => exact .bind (.emit _) fun _ _ _ => .pure _
  | event skip =>
    cases construct with
    | event => exact stepEvent_shapely hshaped
    | _ => cases hinitial
  | callEvent =>
    cases construct with
    | callEvent =>
      obtain ⟨label, hlabel⟩ := hshaped
      show Shapely (do
        callEvent cfg (← Compile.nameAt t node "event call") target
        return (Progress.done, _)) w
      rw [Compile.nameAt_eq hlabel, pure_bind]
      exact .bind (callEvent_shapely _ _) fun _ _ _ => .pure _
    | _ => cases hinitial
  | typeOf type => exact .bind (copyToTarget_shapely _) fun _ _ _ => .pure _

/-! ## Runs

All units on the stack are apt, by induction on the turns of the run, and a run fails in a step
of one of them. -/

/-- What a run keeps: all units on the stack are apt. -/
structure Apts (t : Tree) (before : Workspace) (stack : List WorkUnit) (w : Workspace) : Prop where
  attended : Attended t before stack w
  units : ∀ u ∈ stack, u.Apt t before

theorem Apts.move (h : Apts t before stack w) (hmove : Move cfg t stack w stack' w') :
    Apts t before stack' w' := by
  refine ⟨h.attended.move hmove, ?_⟩
  have hunits := h.units
  cases hmove with
  | done hstep => exact fun v hv => hunits v (List.mem_cons_of_mem _ hv)
  | again hstep =>
    rw [List.forall_mem_cons] at hunits ⊢
    exact ⟨hunits.1.step hstep, hunits.2⟩
  | descend hstep hstart =>
    rw [List.forall_mem_cons] at hunits ⊢
    rw [List.forall_mem_cons]
    have hlater := (h.attended.step hstep).later
    exact ⟨.start hstart hlater.findings, hunits.1.step hstep, hunits.2⟩

theorem Generation.Reaches.apts (h : Reaches cfg t stack w stack' w') (hw : Apts t before stack w) :
    Apts t before stack' w' := by
  induction h with
  | refl => exact hw
  | head hmove _ ih => exact ih (hw.move hmove)

theorem start_shapely (child : NodeId) (target : Option String) :
    Shapely (Generation.start t child target) w := by
  refine .bind .get fun known _ _ => ?_
  split
  · exact .pure _
  · exact .throw rfl

/-- A fault at a node is the fault of the step there. -/
theorem Shapely.at {α : Type} {act : Compile α} {id : NodeId} {e : CompileError} (h : Shapely act w)
    (herror : Compilation.at id act w = .error e w') : e.fault.isShape = false := by
  unfold Compilation.at EStateM.adaptExcept at herror
  split at herror
  next fault w₁ hact =>
    cases herror
    exact h _ _ hact
  next => cases herror

/-- A run from apt units has no fault of shape. -/
theorem run_shapely (hresolved : Program.resolved cfg t = .ok before) {fuel : Nat}
    {e : CompileError} (hw : Apts t before stack w) (h : run cfg t fuel stack w = .error e w') :
    e.fault.isShape = false := by
  induction fuel generalizing stack w with
  | zero => cases h
  | succ fuel ih =>
    cases stack with
    | nil => cases h
    | cons u rest =>
      have hstep := (hw.units u List.mem_cons_self).shapely hresolved hw.attended.later
      rw [run] at h
      cases hact : Compilation.at u.node (Generation.step cfg t u) w with
      | error e' w₁ =>
        rw [bind_of_error hact] at h
        cases h
        exact hstep.at hact
      | ok r w₁ =>
        obtain ⟨p, u'⟩ := r
        rw [bind_of_yields hact] at h
        have hact' := Compilation.at_iff.mp hact
        cases p with
        | done => exact ih (hw.move (.done hact')) h
        | again => exact ih (hw.move (.again hact')) h
        | descend child target =>
          dsimp only at h
          cases hstart : Compilation.at child (Generation.start t child target) w₁ with
          | error e' w₂ =>
            rw [bind_of_error hstart] at h
            cases h
            exact (start_shapely child target).at hstart
          | ok next w₂ =>
            rw [bind_of_yields hstart] at h
            exact ih (hw.move (.descend hact' (Compilation.at_iff.mp hstart))) h

end Units

/-- When resolution has succeeded, generation fails, if it does, because a node has no construct or
an event no routine, because a value has no type, or because the assembly refuses; and wherever it
comes to, the condition that a conditional or a loop jumps on has a slot. -/
theorem Program.resolved_shapely {cfg : Setting} {t : Tree} {before : Workspace}
    (h : Program.resolved cfg t = .ok before) :
    (∀ e w, generate cfg t before = .error e w →
      (∃ tag, e.fault = .noHandler tag) ∨ (∃ tag, e.fault = .untyped tag) ∨
        ∃ refusal, e.fault = .build refusal) ∧
      ∀ first, Yields (Generation.start t Tree.root none) before first before →
        ∀ u rest w, Reaches cfg t [first] before (u :: rest) w → u.Filled t := by
  have hfirst : ∀ first, Yields (Generation.start t Tree.root none) before first before →
      Apts t before [first] before := fun first hstart =>
    ⟨(Program.resolved_prepared h).attended hstart, fun u hu =>
      List.mem_singleton.mp hu ▸ .start hstart rfl⟩
  refine ⟨fun e w hgenerate => CompileFault.isShape_eq_false ?_, fun first hstart u rest w hreaches =>
    ((hreaches.apts (hfirst first hstart)).units u List.mem_cons_self).filled⟩
  unfold generate at hgenerate
  cases hstart : Compilation.at Tree.root (Generation.start t Tree.root none) before with
  | error e' w' =>
    rw [bind_of_error hstart] at hgenerate
    cases hgenerate
    exact (start_shapely _ _).at hstart
  | ok first w' =>
    rw [bind_of_yields hstart] at hgenerate
    have hstart' := Compilation.at_iff.mp hstart
    obtain ⟨rfl, -⟩ := start_cases hstart'
    exact run_shapely h (hfirst first hstart') hgenerate

/-- A conditional is compiled with its condition, and the call behind it has no handler. -/
theorem Program.resolved_shapely_noHandler : ∃ t before e w first,
    Tree.read "(if(true,1,2),f(3))" = .ok t ∧
      Program.resolved ⟨Catalog.empty, true⟩ t = .ok before ∧
      generate ⟨Catalog.empty, true⟩ t before = .error e w ∧ e.fault = .noHandler "f" ∧
      Yields (Generation.start t Tree.root none) before first before ∧
      ((∃ tag, e.fault = .noHandler tag) ∨ (∃ tag, e.fault = .untyped tag) ∨
        ∃ refusal, e.fault = .build refusal) ∧
      ∀ u rest w, Reaches ⟨Catalog.empty, true⟩ t [first] before (u :: rest) w → u.Filled t := by
  have hrun : (Tree.read "(if(true,1,2),f(3))").toOption.any fun t =>
      (Program.resolved ⟨Catalog.empty, true⟩ t).toOption.any fun before =>
        (generate ⟨Catalog.empty, true⟩ t before).casesOn (fun _ _ => false) fun e _ =>
          decide (e.fault = .noHandler "f") && (before.construct? Tree.root).isSome := by
    decide +kernel
  obtain ⟨t, hread, -, -, hrun⟩ := Tree.read_of_any hrun
  obtain ⟨before, hresolved, hrun⟩ := exists_ok_of_any hrun
  obtain ⟨hfaults, hfilled⟩ := Program.resolved_shapely hresolved
  cases hgenerate : generate ⟨Catalog.empty, true⟩ t before with
  | ok _ w => simp [hgenerate] at hrun
  | error e w =>
    simp only [hgenerate, Bool.and_eq_true, decide_eq_true_iff] at hrun
    obtain ⟨hfault, hroot⟩ := hrun
    obtain ⟨construct, hconstruct⟩ := Option.isSome_iff_exists.mp hroot
    have hstart : Yields (Generation.start t Tree.root none) before
        { node := Tree.root, target := none, task := .ofConstruct construct } before := by
      simp only [Generation.start, Yields.bind_iff, Yields.get_iff]
      exact ⟨before, before, ⟨rfl, rfl⟩, by rw [hconstruct]; exact Yields.pure_iff.mpr ⟨rfl, rfl⟩⟩
    exact ⟨t, before, e, w, _, hread, hresolved, hgenerate, hfault, hstart, hfaults e w hgenerate,
      hfilled _ hstart⟩

end SexprAsm
