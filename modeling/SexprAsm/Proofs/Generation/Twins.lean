import SexprAsm.Proofs.Generation.Recursion
import SexprAsm.Proofs.Generation.Unchecked
import SexprAsm.Proofs.Generation.Unread
import SexprAsm.Proofs.Workspace.Twins

/-!
# Generating code for similar trees

A unit of work and the one for the corresponding node of a similar tree (`Variation`) take their
steps together (`step_trails`): if a step of the first one succeeds, so does that of the second one,
unless an address is out of range, and both go on with units that correspond.

The assignment in which the trees differ takes no such steps. It is left to a hypothesis: if it
compiles alike once its parts do, so does the whole tree (`compiles`). All that is known of it is
what it may be asked for: if no one asks for the value of its node, then it has no target
(`Quiet`).
-/

namespace SexprAsm

/-! ## Filling arrays

An array is made in a slot by one operation, and filled there by another one. Both compilations
may do so in slots of different types, so whether the operations admit them is asked of each type
(`Catalog.FillsAt`). A slot that the first operation makes gets the type of its parameter
(`Catalog.newArrayType`). Before the array is made, the slots are `Fillable`, and then `Made`. -/

/-- A parameter of an operation admits a variable of a type. -/
def Catalog.Takes (c : Catalog) (operation : String) (index : Nat) (type : TypeId) : Prop :=
  ∃ op p, c.operationNamed? operation = some op ∧ op.parameters[index]? = some p ∧
    p.Admits c.types ⟨type, {}, none⟩

instance (c : Catalog) (operation : String) (index : Nat) (type : TypeId) :
    Decidable (c.Takes operation index type) :=
  decidable_of_iff ((c.operationNamed? operation).any fun op => (op.parameters[index]?).any fun p =>
      decide (p.Admits c.types ⟨type, {}, none⟩)) (by simp [Catalog.Takes, Option.any_eq_true])

/-- An array of some number of elements can be made in a variable of a type, and filled there. -/
def Catalog.FillsAt (c : Catalog) (type : TypeId) (count : Nat) : Prop :=
  c.Takes Manifest.arrayCreate 2 type ∧ (count ≠ 0 → c.Takes Manifest.arraySetValue 0 type)

instance (c : Catalog) (type : TypeId) (count : Nat) : Decidable (c.FillsAt type count) :=
  inferInstanceAs (Decidable (_ ∧ (_ → _)))

/-- The type of a variable that gets its slot when an array is made in it. -/
def Catalog.newArrayType (c : Catalog) : TypeId :=
  ((c.operationNamed? Manifest.arrayCreate).bind (·.parameters[2]?)).elim TypeTable.object (·.type)

theorem Catalog.newArrayType_eq {c : Catalog} {op : Operation} {p : Parameter}
    (hop : c.operationNamed? Manifest.arrayCreate = some op) (hp : op.parameters[2]? = some p) :
    c.newArrayType = p.type := by
  rw [newArrayType, hop, Option.bind_some, hp, Option.elim_some]

/-- A slot of a type that a parameter takes is admitted. -/
theorem Catalog.Takes.admits {c : Catalog} {operation x : String} {index : Nat} {type : TypeId}
    (h : c.Takes operation index type) {op : Operation} {p : Parameter}
    (hop : c.operationNamed? operation = some op) (hp : op.parameters[index]? = some p) {heap : Heap}
    (hkind : heap.kind? x = some (type, false)) :
    ∃ v, heap.slots.get? x = some v ∧ p.Admits c.types v := by
  obtain ⟨op', p', hop', hp', hadmits⟩ := h
  obtain rfl := Option.some.inj (hop.symm.trans hop')
  obtain rfl := Option.some.inj (hp.symm.trans hp')
  obtain ⟨v, hv, hkind⟩ := Option.map_eq_some_iff.mp hkind
  exact ⟨v, hv, hadmits.congr hkind⟩

namespace Variation

open Assembly Generation

variable {S : Variation} {w w' w₁ w₁' : Workspace} {a a' a₁ a₁' : Assembly} {x x' : String}
  {id id' : NodeId} {u u' : WorkUnit} {n : Nat}

/-- Two slots in which the array of a node has been made: they correspond, or the second one takes the
elements whatever the first one is. -/
def Made (S : Variation) (a a' : Assembly) (id : NodeId) (x x' : String) : Prop :=
  Like S.toTwins a a' x x' ∨ x.isEmpty = false ∧ x'.isEmpty = false ∧
    a.heap.slots.contains x = true ∧ ∃ type, a'.heap.kind? x' = some (type, false) ∧
      S.catalog.FillsAt type (S.tree.children id).length

/-- Two slots in which the array of a node can be made: they correspond, or the second one takes the
array whatever the first one is. The variable that is assigned may be missing, and gets its slot then. -/
def Fillable (S : Variation) (a a' : Assembly) (id : NodeId) (x x' : String) : Prop :=
  Like S.toTwins a a' x x' ∨ x.isEmpty = false ∧ x'.isEmpty = false ∧
    (a.heap.slots.contains x = true ∨ x = S.target ∧ S.type = S.catalog.newArrayType) ∧
    ∃ type, S.catalog.FillsAt type (S.tree.children id).length ∧
      (a'.heap.kind? x' = some (type, false) ∨
        x' = S.target ∧ S.type' = type ∧ type = S.catalog.newArrayType)

theorem Made.mono (h : S.Made a a' id x x') (hkeeps : a.Keeps a₁) (hkeeps' : a'.Keeps a₁') :
    S.Made a₁ a₁' id x x' := by
  refine h.imp (fun hlike => hlike.mono hkeeps hkeeps') ?_
  rintro ⟨hx, hx', hthere, type, hkind, hfills⟩
  exact ⟨hx, hx', hkeeps.heap.contains hthere, type, hkeeps'.heap.kind? hkind, hfills⟩

theorem Fillable.mono (h : S.Fillable a a' id x x') (hkeeps : a.Keeps a₁) (hkeeps' : a'.Keeps a₁') :
    S.Fillable a₁ a₁' id x x' := by
  refine h.imp (fun hlike => hlike.mono hkeeps hkeeps') ?_
  rintro ⟨hx, hx', hfirst, type, hfills, hsecond⟩
  exact ⟨hx, hx', hfirst.imp_left hkeeps.heap.contains, type, hfills,
    hsecond.imp_left hkeeps'.heap.kind?⟩

/-- A slot that takes an array serves the operation that makes it. -/
theorem Fillable.serves (h : S.Fillable a a' id x x') {op : Operation} {p : Parameter}
    (hop : S.catalog.operationNamed? Manifest.arrayCreate = some op)
    (hp : op.parameters[2]? = some p) : Emit.ServesOperand S.toTwins a a' p (.var x) (.var x') := by
  have hnew := Catalog.newArrayType_eq hop hp
  refine h.imp (fun hlike => hlike) ?_
  rintro ⟨hx, hx', hfirst, type, hfills, hsecond⟩
  refine ⟨x, x', rfl, rfl, hx, hx', hfirst.imp_right ?_, hsecond.imp ?_ ?_⟩
  · rintro ⟨hx, htype⟩
    exact ⟨hx, hnew.symm.trans htype.symm⟩
  · exact hfills.1.admits hop hp
  · rintro ⟨hx', htype, hsame⟩
    exact ⟨hx', hnew.symm.trans (hsame.symm.trans htype.symm)⟩

/-- A slot that takes an array serves the operation that stores an element. -/
theorem Made.serves (h : S.Made a a' id x x') (helements : S.tree.children id ≠ []) {op : Operation}
    {p : Parameter} (hop : S.catalog.operationNamed? Manifest.arraySetValue = some op)
    (hp : op.parameters[0]? = some p) : Emit.ServesOperand S.toTwins a a' p (.var x) (.var x') := by
  refine h.imp (fun hlike => hlike) ?_
  rintro ⟨hx, hx', hthere, type, hkind, hfills⟩
  have htakes := hfills.2 fun hnone => helements (List.length_eq_zero_iff.mp hnone)
  exact ⟨x, x', rfl, rfl, hx, hx', Or.inl hthere, Or.inl (htakes.admits hop hp hkind)⟩

/-- Once both slots are there, an array that could be made in them has been made. -/
theorem Fillable.made (h : S.Fillable a a' id x x') (ha : Assembly.Alike S.toTwins a a')
    (hthere : a.heap.slots.contains x = true) (hthere' : a'.heap.slots.contains x' = true) :
    S.Made a a' id x x' := by
  refine h.imp_right ?_
  rintro ⟨hx, hx', -, type, hfills, hsecond⟩
  refine ⟨hx, hx', hthere, type, hsecond.elim (fun hkind => hkind) ?_, hfills⟩
  rintro ⟨rfl, rfl, -⟩
  refine ha.target'.resolve_right fun hmissing => ?_
  obtain ⟨v, hv⟩ := OrderedMap.contains_iff.mp hthere'
  cases (Heap.kind?_eq_none.mp hmissing.2).symm.trans hv

/-! ## Units that correspond

Two units are compared by what they do next: tasks at the same point, with slots that correspond
and jumps of the same rank (`SameTask`). What they look at stays as it is while others are at
work, so the relation is kept (`SameUnit.mono`). Targets are not always slots that correspond: an
array may be filled in different ones (`Destination`). -/

/-- Two tasks at the same point of the work on nodes that correspond. -/
inductive SameTask (S : Variation) (a a' : Assembly) (id : NodeId) : Task → Task → Prop
  | literal : SameTask S a a' id .literal .literal
  | get : SameTask S a a' id .get .get
  | set : SameTask S a a' id .set .set
  | declare : SameTask S a a' id .declare .declare
  | sequence : SameTask S a a' id .sequence .sequence
  | conditional {condition condition' : Option String} {pending pending' : Option InstructionId}
      {exits exits' : List InstructionId}
      (hcondition : Option.Rel (Like S.toTwins a a') condition condition')
      (hpending : Option.Rel (a.SameJump a') pending pending')
      (hexits : List.Forall₂ (a.SameJump a') exits exits') :
      SameTask S a a' id (.conditional condition pending exits)
        (.conditional condition' pending' exits')
  | loop {start start' : Option InstructionId} {condition condition' : Option String}
      {exit exit' : Option InstructionId}
      (hcondition : Option.Rel (Like S.toTwins a a') condition condition')
      (hexit : Option.Rel (a.SameJump a') exit exit') :
      SameTask S a a' id (.loop start condition exit) (.loop start' condition' exit')
  | call (op : OperationId) {arguments arguments' : List Operand}
      (harguments : List.Forall₂ (Emit.LikeOperand S.toTwins a a') arguments arguments') :
      SameTask S a a' id (.call op arguments) (.call op arguments')
  | cast {value value' : Option String} (hvalue : Option.Rel (Like S.toTwins a a') value value') :
      SameTask S a a' id (.cast value) (.cast value')
  | arrayStart (type : TypeId) : SameTask S a a' id (.arrayFill type none) (.arrayFill type none)
  | arrayFill (type : TypeId) {array array' scratch scratch' : String}
      (harray : S.Made a a' id array array') (hscratch : Like S.toTwins a a' scratch scratch')
      (helements : S.tree.children id ≠ []) :
      SameTask S a a' id (.arrayFill type (some (array, scratch)))
        (.arrayFill type (some (array', scratch')))
  | inlineAsm : SameTask S a a' id .inlineAsm .inlineAsm
  | event {skip skip' : Option InstructionId} (hskip : Option.Rel (a.SameJump a') skip skip') :
      SameTask S a a' id (.event skip) (.event skip')
  | callEvent : SameTask S a a' id .callEvent .callEvent
  | typeOf (type : TypeId) : SameTask S a a' id (.typeOf type) (.typeOf type)

theorem SameTask.mono {task task' : Task} (h : S.SameTask a a' id task task')
    (hkeeps : a.Keeps a₁) (hkeeps' : a'.Keeps a₁') : S.SameTask a₁ a₁' id task task' := by
  have hlike : ∀ {x x' : Option String}, Option.Rel (Like S.toTwins a a') x x' →
      Option.Rel (Like S.toTwins a₁ a₁') x x' :=
    fun h => Option.Rel.imp h fun _ _ hlike => hlike.mono hkeeps hkeeps'
  have hjump : ∀ {j j' : Option InstructionId}, Option.Rel (a.SameJump a') j j' →
      Option.Rel (a₁.SameJump a₁') j j' :=
    fun h => Option.Rel.imp h fun _ _ hjump => hjump.mono hkeeps hkeeps'
  cases h with
  | conditional hcondition hpending hexits =>
    exact .conditional (hlike hcondition) (hjump hpending)
      (hexits.imp fun _ _ hjump => hjump.mono hkeeps hkeeps')
  | loop hcondition hexit => exact .loop (hlike hcondition) (hjump hexit)
  | call op harguments => exact .call op (harguments.imp fun _ _ ho => ho.mono hkeeps hkeeps')
  | cast hvalue => exact .cast (hlike hvalue)
  | arrayFill type harray hscratch helements =>
    exact .arrayFill type (harray.mono hkeeps hkeeps') (hscratch.mono hkeeps hkeeps') helements
  | event hskip => exact .event (hjump hskip)
  | arrayStart type => exact .arrayStart type
  | typeOf type => exact .typeOf type
  | _ => constructor

/-- The slots that two units can put their values in. -/
def Destination (S : Variation) (a a' : Assembly) (id : NodeId) : Task → String → String → Prop
  | .arrayFill _ _ => S.Fillable a a' id
  | _ => Like S.toTwins a a'

theorem Destination.of_like (task : Task) (h : Like S.toTwins a a' x x') :
    S.Destination a a' id task x x' := by
  cases task <;> first | exact Or.inl h | exact h

theorem Destination.mono {task : Task} (h : S.Destination a a' id task x x') (hkeeps : a.Keeps a₁)
    (hkeeps' : a'.Keeps a₁') : S.Destination a₁ a₁' id task x x' := by
  cases task <;> first | exact Fillable.mono h hkeeps hkeeps' | exact Like.mono h hkeeps hkeeps'

/-- Two units at the same point of the work on nodes that correspond. -/
structure SameUnit (S : Variation) (w w' : Workspace) (u u' : WorkUnit) : Prop where
  node : S.node u.node u'.node
  other : u.node ≠ S.site
  step : u'.step = u.step
  target : Option.Rel (S.Destination w.assembly w'.assembly u.node u.task) u.target u'.target
  task : S.SameTask w.assembly w'.assembly u.node u.task u'.task

theorem SameUnit.mono (h : S.SameUnit w w' u u') (hkeeps : w.assembly.Keeps w₁.assembly)
    (hkeeps' : w'.assembly.Keeps w₁'.assembly) : S.SameUnit w₁ w₁' u u' :=
  ⟨h.node, h.other, h.step, Option.Rel.imp h.target fun _ _ hx => hx.mono hkeeps hkeeps',
    h.task.mono hkeeps hkeeps'⟩

/-- Two outcomes of steps that correspond, and those of the units behind them. -/
inductive SameOutcome (S : Variation) (w w' : Workspace) :
    Progress × WorkUnit → Progress × WorkUnit → Prop
  | done (u u' : WorkUnit) : SameOutcome S w w' (.done, u) (.done, u')
  | again {u u' : WorkUnit} (hunit : S.SameUnit w w' u u') :
    SameOutcome S w w' (.again, u) (.again, u')
  | descend {child child' : NodeId} {target target' : Option String} {u u' : WorkUnit}
      (hchild : S.node child child')
      (htarget : Option.Rel (Like S.toTwins w.assembly w'.assembly) target target')
      (hunit : S.SameUnit w w' u u') :
      SameOutcome S w w' (.descend child target, u) (.descend child' target', u')

/-! ## Parts of steps

One lemma for each operation that steps are put together from. What is looked up in the trees is
the same for nodes that correspond, away from the assignment, and looking it up changes nothing. -/

theorem forall₂_getElem? {α β : Type} {R : α → β → Prop} {l : List α} {l' : List β}
    (h : List.Forall₂ R l l') (n : Nat) : Option.Rel R l[n]? l'[n]? := by
  induction h generalizing n with
  | nil => exact .none
  | cons head _ ih =>
    cases n with
    | zero => exact .some head
    | succ n => exact ih n

theorem childAt_trails (h : S.Alike w w') (hnode : S.node id id') (hother : id ≠ S.site) (index : Nat)
    (construct : String) :
    Trails S.workspaces S.Faulty (childAt S.tree id index construct) w
      (childAt S.tree' id' index construct) w'
      fun child child' w₁ w₁' => S.node child child' ∧ w₁ = w ∧ w₁' = w' := by
  unfold childAt
  have hchild := forall₂_getElem? (S.children id id' hnode hother) index
  revert hchild
  cases (S.tree.children id)[index]? <;> cases (S.tree'.children id')[index]? <;> intro hchild <;>
    cases hchild
  · exact .throw
  · exact .pure h ⟨‹_›, rfl, rfl⟩

theorem nameAt_trails (h : S.Alike w w') (hnode : S.node id id') (construct : String) :
    Trails S.workspaces S.Faulty (Compile.nameAt S.tree id construct) w
      (Compile.nameAt S.tree' id' construct) w'
      fun name name' w₁ w₁' => name' = name ∧ S.shared name ∧ name.isEmpty = false ∧ w₁ = w ∧
        w₁' = w' := by
  unfold Compile.nameAt
  rw [S.tag id id' hnode]
  cases hname : (S.tree.tag id).text? with
  | none => exact .throw
  | some name =>
    dsimp only
    cases hempty : name.isEmpty with
    | true => exact .throw
    | false => exact .pure h ⟨rfl, S.names id id' name hnode hname, hempty, rfl, rfl⟩

theorem finding_eq (h : S.Alike w w') (hnode : S.node id id') : w'.finding id' = w.finding id := by
  rw [Workspace.finding, Workspace.finding, h.findings, h.findings', S.finding id id' hnode]

theorem typeAt_trails (h : S.Alike w w') (hnode : S.node id id') :
    Trails S.workspaces S.Faulty (typeAt S.tree id) w (typeAt S.tree' id') w'
      fun type type' w₁ w₁' => type' = type ∧ w₁ = w ∧ w₁' = w' := by
  refine .get_bind ?_
  rw [Workspace.nodeType?, Workspace.nodeType?, finding_eq h hnode]
  cases (w.finding id).type with
  | none => exact .throw
  | some type => exact .pure h ⟨rfl, rfl, rfl⟩

theorem unitRent_trails (h : S.Alike w w') (u u' : WorkUnit) (type : TypeId) :
    Trails S.workspaces S.Faulty (rent S.setting u type) w (rent S.setting u' type) w'
      fun r r' w₁ w₁' => ∃ name name', r = (name, { u with temps := u.temps ++ [name] }) ∧
        r' = (name', { u' with temps := u'.temps ++ [name'] }) ∧
        Like S.toTwins w₁.assembly w₁'.assembly name name' := by
  refine .bind (rent_trails h type) ?_
  intro name name' w₁ w₁' h₁ _ _ hsame
  exact .pure h₁ ⟨name, name', rfl, rfl, Or.inr hsame⟩

theorem release_trails (h : S.Alike w w') (u u' : WorkUnit) :
    Trails S.workspaces S.Faulty (release u) w (release u') w'
      fun r r' _ _ => r = { u with temps := [] } ∧ r' = { u' with temps := [] } := by
  obtain ⟨-, hassembly, -⟩ := Workspace.foldl_giveBack_spec h.pooled u.temps
  obtain ⟨-, hassembly', -⟩ := Workspace.foldl_giveBack_spec h.pooled' u'.temps
  refine .bind (Q := fun _ _ _ _ => True) (.modify (h.giveBack u.temps u'.temps) ?_ ?_ trivial) ?_
  · show w.assembly.Keeps _
    rw [hassembly]
    exact .refl _
  · show w'.assembly.Keeps _
    rw [hassembly']
    exact .refl _
  · intro _ _ w₁ w₁' h₁ _ _ _
    exact .pure h₁ ⟨rfl, rfl⟩

/-- A step that ends its unit gives back what the unit holds. -/
theorem done_trails (h : S.Alike w w') (u u' : WorkUnit) :
    Trails S.workspaces S.Faulty (do return (Progress.done, ← release u)) w
      (do return (Progress.done, ← release u')) w'
      fun r r' w₁ w₁' => S.SameOutcome w₁ w₁' r r' := by
  refine .bind (release_trails h u u') ?_
  intro _ _ w₁ w₁' h₁ _ _ _
  exact .pure h₁ (.done _ _)

theorem lastInstruction_trails (h : S.Alike w w') :
    Trails S.workspaces S.Faulty lastInstruction w lastInstruction w'
      fun _ _ w₁ w₁' => w₁ = w ∧ w₁' = w' :=
  .get_bind (.pure h ⟨rfl, rfl⟩)

theorem patchAll_trails (h : S.Alike w w') {jumps jumps' : List InstructionId}
    (hjumps : List.Forall₂ (w.assembly.SameJump w'.assembly) jumps jumps')
    (place place' : Option InstructionId) :
    Trails S.workspaces S.Faulty (patchAll (.after place) jumps) w (patchAll (.after place') jumps') w'
      fun _ _ _ _ => True := by
  induction jumps generalizing w w' jumps' with
  | nil =>
    cases hjumps
    exact .pure h trivial
  | cons jump jumps ih =>
    cases hjumps with
    | cons head tail =>
      refine .bind (emit_trails h (Emit.patch_trails h.assembly head (by simp) (by simp))) ?_
      intro _ _ w₁ w₁' h₁ hkeeps hkeeps' _
      exact ih h₁ (tail.imp fun _ _ hjump => hjump.mono hkeeps hkeeps')

theorem forall₂_toList {α β : Type} {R : α → β → Prop} {x : Option α} {y : Option β}
    (h : Option.Rel R x y) : List.Forall₂ R x.toList y.toList := by
  cases h with
  | some h => exact .cons h .nil
  | none => exact .nil

/-- Both emit a jump that waits for its target. -/
theorem jump_trails (h : S.Alike w w') :
    Trails S.workspaces S.Faulty (Compile.emit (Emit.instruction (.jump .unresolved))) w
      (Compile.emit (Emit.instruction (.jump .unresolved))) w'
      fun jump jump' w₁ w₁' => w₁.assembly.SameJump w₁'.assembly jump jump' :=
  (emit_trails h (Emit.instruction_trails h.assembly (.jump .unresolved) _ rfl rfl)).imp
    fun _ _ _ _ _ _ _ hjump => hjump (by decide)

theorem copy_trails (h : S.Alike w w') {o o' : Operand}
    (ho : Emit.LikeOperand S.toTwins w.assembly w'.assembly o o')
    (hlike : Like S.toTwins w.assembly w'.assembly x x') :
    Trails S.workspaces S.Faulty (Compile.emit (Emit.copy S.setting o x)) w
      (Compile.emit (Emit.copy S.setting o' x')) w' fun _ _ _ _ => True :=
  emit_trails h (Emit.copy_trails h.assembly ho hlike)

theorem copyToTarget_trails (h : S.Alike w w') {o o' : Operand}
    (ho : Emit.LikeOperand S.toTwins w.assembly w'.assembly o o')
    (htarget : Option.Rel (Like S.toTwins w.assembly w'.assembly) u.target u'.target) :
    Trails S.workspaces S.Faulty (copyToTarget S.setting u o) w (copyToTarget S.setting u' o') w'
      fun _ _ _ _ => True := by
  unfold copyToTarget
  revert htarget
  cases u.target <;> cases u'.target <;> intro htarget <;> cases htarget
  · exact .pure h trivial
  next hlike =>
    refine .bind (copy_trails h ho hlike) ?_
    intro _ _ w₁ w₁' h₁ _ _ _
    exact .pure h₁ trivial

/-! ## Steps

Each step is followed in the order of its operations (`.bind`), and ends with units that
correspond again. What the operations keep adds up on the way, and carries what is known of
targets and tasks to the end (`sameUnit_of`). -/

section Steps

variable (h : S.Alike w w') (hnode : S.node u.node u'.node) (hother : u.node ≠ S.site)
  (htarget : Option.Rel (Like S.toTwins w.assembly w'.assembly) u.target u'.target)

/-- Targets stay where they are. -/
theorem target_mono {target target' : Option String}
    (h : Option.Rel (Like S.toTwins a a') target target') (hkeeps : a.Keeps a₁)
    (hkeeps' : a'.Keeps a₁') : Option.Rel (Like S.toTwins a₁ a₁') target target' :=
  Option.Rel.imp h fun _ _ hlike => hlike.mono hkeeps hkeeps'

include h hnode htarget in
theorem stepLiteral_trails :
    Trails S.workspaces S.Faulty (stepLiteral S.setting S.tree u) w
      (stepLiteral S.setting S.tree' u') w' fun r r' w₁ w₁' => S.SameOutcome w₁ w₁' r r' := by
  unfold stepLiteral
  rw [S.tag _ _ hnode]
  revert htarget
  cases u.target <;> cases u'.target <;> intro htarget <;> cases htarget
  · refine .bind (emit_trails h (Emit.instruction_trails h.assembly .nop .nop rfl rfl)) ?_
    intro _ _ w₁ w₁' h₁ _ _ _
    exact .pure h₁ (.done u u')
  next hlike =>
    refine .bind (copy_trails h (.const rfl) hlike) ?_
    intro _ _ w₁ w₁' h₁ _ _ _
    exact .pure h₁ (.done u u')

include h hnode hother htarget in
theorem stepGet_trails :
    Trails S.workspaces S.Faulty (stepGet S.setting S.tree u) w (stepGet S.setting S.tree' u') w'
      fun r r' w₁ w₁' => S.SameOutcome w₁ w₁' r r' := by
  refine .bind (childAt_trails h hnode hother _ _) ?_
  rintro child child' _ _ h₁ - - ⟨hchild, rfl, rfl⟩
  refine .bind (nameAt_trails h₁ hchild _) ?_
  rintro _ name _ _ h₂ - - ⟨rfl, hshared, hname, rfl, rfl⟩
  refine .bind (emit_trails h₂ (Emit.typeOf?_trails h₂.assembly (Or.inl ⟨rfl, hshared⟩) hname)) ?_
  rintro _ type w₃ w₃' h₃ hkeeps hkeeps' ⟨rfl, -⟩
  cases type.isNone with
  | true => exact .throw_bind
  | false =>
    refine .bind (copyToTarget_trails h₃ (.var (Or.inl ⟨rfl, hshared⟩))
      (target_mono htarget hkeeps hkeeps')) ?_
    intro _ _ w₄ w₄' h₄ _ _ _
    exact .pure h₄ (.done u u')

include h hnode hother htarget in
theorem stepDeclare_trails :
    Trails S.workspaces S.Faulty (stepDeclare S.setting S.tree u) w
      (stepDeclare S.setting S.tree' u') w' fun r r' w₁ w₁' => S.SameOutcome w₁ w₁' r r' := by
  unfold stepDeclare
  have hsome : u'.target.isSome = u.target.isSome := by
    revert htarget
    cases u.target <;> cases u'.target <;> intro htarget <;> cases htarget <;> rfl
  rw [hsome]
  split
  next =>
    refine .bind (childAt_trails h hnode hother _ _) ?_
    rintro child child' _ _ h₁ - - ⟨hchild, rfl, rfl⟩
    refine .bind (nameAt_trails h₁ hchild _) ?_
    rintro _ name _ _ h₂ - - ⟨rfl, hshared, hname, rfl, rfl⟩
    refine .bind (copyToTarget_trails h₂ (.var (Or.inl ⟨rfl, hshared⟩))
      htarget) ?_
    intro _ _ w₃ w₃' h₃ _ _ _
    exact .pure h₃ (.done u u')
  next => exact .pure h (.done u u')

include h hnode hother htarget in
theorem stepSet_trails (hstep : u'.step = u.step) (htask : u.task = .set) (htask' : u'.task = .set) :
    Trails S.workspaces S.Faulty (stepSet S.setting S.tree n u) w (stepSet S.setting S.tree' n u') w'
      fun r r' w₁ w₁' => S.SameOutcome w₁ w₁' r r' := by
  refine .bind (childAt_trails h hnode hother _ _) ?_
  rintro first first' _ _ h₁ - - ⟨hfirst, rfl, rfl⟩
  refine .bind (nameAt_trails h₁ hfirst _) ?_
  rintro _ name _ _ h₂ - - ⟨rfl, hshared, -, rfl, rfl⟩
  split
  next =>
    refine .bind (childAt_trails h₂ hnode hother _ _) ?_
    rintro child child' _ _ h₃ - - ⟨hchild, rfl, rfl⟩
    refine .pure h₃ (.descend hchild (.some (Or.inl ⟨rfl, hshared⟩))
      ⟨hnode, hother, hstep, ?_, ?_⟩)
    · rw [htask]
      exact htarget
    · rw [htask, htask']
      exact .set
  next =>
    refine .bind (copyToTarget_trails h₂ (.var (Or.inl ⟨rfl, hshared⟩))
      htarget) ?_
    intro _ _ w₃ w₃' h₃ _ _ _
    exact done_trails h₃ u u'

include h hnode hother htarget in
theorem stepSequence_trails (hstep : u'.step = u.step) (htask : u.task = .sequence)
    (htask' : u'.task = .sequence) :
    Trails S.workspaces S.Faulty (stepSequence S.tree n u) w (stepSequence S.tree' n u') w'
      fun r r' w₁ w₁' => S.SameOutcome w₁ w₁' r r' := by
  unfold stepSequence
  have hchildren := S.children _ _ hnode hother
  have hchild := forall₂_getElem? hchildren n
  dsimp only
  rw [hchildren.length_eq]
  revert hchild
  cases (S.tree.children u.node)[n]? <;> cases (S.tree'.children u'.node)[n]? <;> intro hchild <;>
    cases hchild
  · exact .pure h (.done u u')
  next hchild =>
    refine .pure h (.descend hchild ?_ ⟨hnode, hother, hstep, ?_, ?_⟩)
    · split
      · exact htarget
      · exact .none
    · rw [htask]
      exact htarget
    · rw [htask, htask']
      exact .sequence

include hnode hother htarget in
/-- Units that go on, with another task. -/
theorem sameUnit_of {u₁ u₁' : WorkUnit} (hstep : u₁'.step = u₁.step) (hu₁ : u₁.node = u.node)
    (hu₁' : u₁'.node = u'.node) (ht₁ : u₁.target = u.target) (ht₁' : u₁'.target = u'.target)
    (hkeeps : w.assembly.Keeps w₁.assembly) (hkeeps' : w'.assembly.Keeps w₁'.assembly)
    (htask : S.SameTask w₁.assembly w₁'.assembly u.node u₁.task u₁'.task) :
    S.SameUnit w₁ w₁' u₁ u₁' := by
  refine ⟨hu₁ ▸ hu₁' ▸ hnode, hu₁ ▸ hother, hstep, ?_, hu₁ ▸ htask⟩
  rw [ht₁, ht₁']
  exact Option.Rel.imp htarget fun _ _ hlike => .of_like _ (hlike.mono hkeeps hkeeps')

include hnode hother htarget in
/-- A temporary for the value of a child, and the unit that holds it. -/
theorem descendTo_trails {child child' : NodeId} (hchild : S.node child child')
    (hstep : u'.step = u.step) (task task' : String → Task)
    (hkeeps : w.assembly.Keeps w₁.assembly) (hkeeps' : w'.assembly.Keeps w₁'.assembly)
    (h₁ : S.Alike w₁ w₁')
    (htask : ∀ {a a' : Assembly} {name name' : String}, w₁.assembly.Keeps a →
      w₁'.assembly.Keeps a' → Like S.toTwins a a' name name' →
      S.SameTask a a' u.node (task name) (task' name')) :
    Trails S.workspaces S.Faulty (do
        let (name, u) ← rent S.setting u (← typeAt S.tree child)
        return (Progress.descend child (some name), { u with task := task name })) w₁ (do
        let (name, u) ← rent S.setting u' (← typeAt S.tree' child')
        return (Progress.descend child' (some name), { u with task := task' name })) w₁'
      fun r r' w₂ w₂' => S.SameOutcome w₂ w₂' r r' := by
  refine .bind (typeAt_trails h₁ hchild) ?_
  rintro _ type _ _ h₂ - - ⟨rfl, rfl, rfl⟩
  refine .bind (unitRent_trails h₂ u u' type) ?_
  rintro _ _ w₃ w₃' h₃ hkeeps₃ hkeeps₃' ⟨name, name', rfl, rfl, hname⟩
  exact .pure h₃ (.descend hchild (.some hname) (sameUnit_of hnode hother htarget hstep rfl rfl rfl
    rfl (hkeeps.trans hkeeps₃) (hkeeps'.trans hkeeps₃') (htask hkeeps₃ hkeeps₃' hname)))

include hnode hother htarget in
/-- Whatever the branch before leaves, the next condition or the last branch follows. -/
theorem takeBranch_trails (hstep : u'.step = u.step) {condition condition' : Option String}
    {branch branch' : NodeId} {pending pending' : Option InstructionId}
    {exits exits' : List InstructionId} (h₁ : S.Alike w₁ w₁')
    (hkeeps₁ : w.assembly.Keeps w₁.assembly) (hkeeps₁' : w'.assembly.Keeps w₁'.assembly)
    (hbranch : S.node branch branch')
    (hcondition : Option.Rel (Like S.toTwins w.assembly w'.assembly) condition condition')
    (hpending : Option.Rel (w₁.assembly.SameJump w₁'.assembly) pending pending')
    (hexits : List.Forall₂ (w₁.assembly.SameJump w₁'.assembly) exits exits') :
    Trails S.workspaces S.Faulty
      (takeBranch S.setting S.tree n u condition branch pending exits) w₁
      (takeBranch S.setting S.tree' n u' condition' branch' pending' exits') w₁'
      fun r r' w₁ w₁' => S.SameOutcome w₁ w₁' r r' := by
  unfold takeBranch
  rw [(S.children _ _ hnode hother).length_eq]
  split
  next =>
    refine descendTo_trails hnode hother htarget hbranch hstep
      (fun name => .conditional (some name) pending exits)
      (fun name => .conditional (some name) pending' exits') hkeeps₁ hkeeps₁' h₁ ?_
    intro a a' name name' hkeeps hkeeps' hname
    exact .conditional (.some hname)
      (Option.Rel.imp hpending fun _ _ hjump => hjump.mono hkeeps hkeeps')
      (hexits.imp fun _ _ hjump => hjump.mono hkeeps hkeeps')
  next =>
    exact .pure h₁ (.descend hbranch (target_mono htarget hkeeps₁ hkeeps₁')
      (sameUnit_of hnode hother htarget hstep rfl rfl rfl rfl hkeeps₁ hkeeps₁'
        (.conditional (target_mono hcondition hkeeps₁ hkeeps₁') hpending hexits)))

include h hnode hother htarget in
theorem stepConditional_trails (hstep : u'.step = u.step) {condition condition' : Option String}
    {pending pending' : Option InstructionId} {exits exits' : List InstructionId}
    (hcondition : Option.Rel (Like S.toTwins w.assembly w'.assembly) condition condition')
    (hpending : Option.Rel (w.assembly.SameJump w'.assembly) pending pending')
    (hexits : List.Forall₂ (w.assembly.SameJump w'.assembly) exits exits') :
    Trails S.workspaces S.Faulty (stepConditional S.setting S.tree n u condition pending exits) w
      (stepConditional S.setting S.tree' n u' condition' pending' exits') w'
      fun r r' w₁ w₁' => S.SameOutcome w₁ w₁' r r' := by
  unfold stepConditional
  have hchildren := S.children _ _ hnode hother
  have hbranch := forall₂_getElem? hchildren n
  dsimp only
  revert hbranch
  cases (S.tree.children u.node)[n]? <;> cases (S.tree'.children u'.node)[n]? <;> intro hbranch <;>
    cases hbranch
  · -- All branches are done: the jumps that are still open go to the end.
    refine .bind (lastInstruction_trails h) ?_
    rintro last last' _ _ h₁ - - ⟨rfl, rfl⟩
    refine .bind (patchAll_trails h₁ hexits last last') ?_
    intro _ _ w₂ w₂' h₂ hkeeps₂ hkeeps₂' _
    refine .bind (patchAll_trails h₂ ((forall₂_toList hpending).imp fun _ _ hjump =>
      hjump.mono hkeeps₂ hkeeps₂') last last') ?_
    intro _ _ w₃ w₃' h₃ _ _ _
    refine .bind (release_trails h₃ u u') ?_
    intro _ _ w₄ w₄' h₄ _ _ _
    exact .pure h₄ (.done _ _)
  next branch branch' hbranch =>
    dsimp only
    split
    next =>
      -- Behind a condition: the jump over its branch, in both for slots that correspond.
      cases hcondition with
      | none => exact .throw
      | @some name name' hname =>
        refine .bind (emit_trails h (Emit.jumpIfFalse_trails h.assembly hname .unresolved)) ?_
        intro jump jump' w₁ w₁' h₁ hkeeps₁ hkeeps₁' hjump
        refine .bind (release_trails h₁ u u') ?_
        rintro _ _ w₂ w₂' h₂ hkeeps₂ hkeeps₂' ⟨rfl, rfl⟩
        have hkeeps := hkeeps₁.trans hkeeps₂
        have hkeeps' := hkeeps₁'.trans hkeeps₂'
        exact .pure h₂ (.descend hbranch (target_mono htarget hkeeps hkeeps')
          (sameUnit_of hnode hother htarget hstep rfl rfl rfl rfl hkeeps hkeeps'
            (.conditional .none (.some (hjump.mono hkeeps₂ hkeeps₂'))
              (hexits.imp fun _ _ hjump => hjump.mono hkeeps hkeeps'))))
    next =>
      split
      next =>
        exact takeBranch_trails hnode hother htarget hstep h (.refl _) (.refl _) hbranch hcondition
          hpending hexits
      next =>
        refine .bind (jump_trails h) ?_
        intro exit exit' w₁ w₁' h₁ hkeeps₁ hkeeps₁' hexit
        refine .bind (patchAll_trails h₁ ((forall₂_toList hpending).imp fun _ _ hjump =>
          hjump.mono hkeeps₁ hkeeps₁') (some exit) (some exit')) ?_
        intro _ _ w₂ w₂' h₂ hkeeps₂ hkeeps₂' _
        have hkeeps := hkeeps₁.trans hkeeps₂
        have hkeeps' := hkeeps₁'.trans hkeeps₂'
        exact takeBranch_trails hnode hother htarget hstep h₂ hkeeps hkeeps' hbranch hcondition .none
          (List.rel_append (hexits.imp fun _ _ hjump => hjump.mono hkeeps hkeeps')
            (.cons (hexit.mono hkeeps₂ hkeeps₂') .nil))

include h hnode hother htarget in
theorem stepLoop_trails (hstep : u'.step = u.step) {start start' : Option InstructionId}
    {condition condition' : Option String} {exit exit' : Option InstructionId}
    (hcondition : Option.Rel (Like S.toTwins w.assembly w'.assembly) condition condition')
    (hexit : Option.Rel (w.assembly.SameJump w'.assembly) exit exit') :
    Trails S.workspaces S.Faulty (stepLoop S.setting S.tree n u start condition exit) w
      (stepLoop S.setting S.tree' n u' start' condition' exit') w'
      fun r r' w₁ w₁' => S.SameOutcome w₁ w₁' r r' := by
  unfold stepLoop
  -- The test, the jump out behind it, and the jump back behind the body.
  split
  · refine .bind (lastInstruction_trails h) ?_
    rintro last last' _ _ h₁ - - ⟨rfl, rfl⟩
    refine .bind (childAt_trails h₁ hnode hother _ _) ?_
    rintro test test' _ _ h₂ - - ⟨htest, rfl, rfl⟩
    refine descendTo_trails hnode hother htarget htest hstep
      (fun name => .loop last (some name) exit) (fun name => .loop last' (some name) exit')
      (.refl _) (.refl _) h₂ ?_
    intro a a' name name' hkeeps hkeeps' hname
    exact .loop (.some hname) (Option.Rel.imp hexit fun _ _ hjump => hjump.mono hkeeps hkeeps')
  · cases hcondition with
    | none => exact .throw
    | @some name name' hname =>
      refine .bind (emit_trails h (Emit.jumpIfFalse_trails h.assembly hname .unresolved)) ?_
      intro jump jump' w₁ w₁' h₁ hkeeps₁ hkeeps₁' hjump
      refine .bind (childAt_trails h₁ hnode hother _ _) ?_
      rintro body body' _ _ h₂ - - ⟨hbody, rfl, rfl⟩
      refine .bind (release_trails h₂ u u') ?_
      rintro _ _ w₃ w₃' h₃ hkeeps₃ hkeeps₃' ⟨rfl, rfl⟩
      have hkeeps := hkeeps₁.trans hkeeps₃
      have hkeeps' := hkeeps₁'.trans hkeeps₃'
      exact .pure h₃ (.descend hbody (target_mono htarget hkeeps hkeeps')
        (sameUnit_of hnode hother htarget hstep rfl rfl rfl rfl hkeeps hkeeps'
          (.loop .none (.some (hjump.mono hkeeps₃ hkeeps₃')))))
  · refine .bind (emit_trails h (Emit.instruction_trails h.assembly (.jump (.after start))
      (.jump (.after start')) rfl rfl)) ?_
    intro back back' w₁ w₁' h₁ hkeeps₁ hkeeps₁' _
    refine .bind (patchAll_trails h₁ ((forall₂_toList hexit).imp fun _ _ hjump =>
      hjump.mono hkeeps₁ hkeeps₁') (some back) (some back')) ?_
    intro _ _ w₂ w₂' h₂ _ _ _
    exact done_trails h₂ u u'

include h hnode hother htarget in
theorem stepCast_trails (hstep : u'.step = u.step) {value value' : Option String}
    (hvalue : Option.Rel (Like S.toTwins w.assembly w'.assembly) value value') :
    Trails S.workspaces S.Faulty (stepCast S.setting S.tree n u value) w
      (stepCast S.setting S.tree' n u' value') w'
      fun r r' w₁ w₁' => S.SameOutcome w₁ w₁' r r' := by
  unfold stepCast
  dsimp only
  split
  next =>
    refine .bind (childAt_trails h hnode hother _ _) ?_
    rintro inner inner' _ _ h₁ - - ⟨hinner, rfl, rfl⟩
    exact descendTo_trails hnode hother htarget hinner hstep (fun name => .cast (some name))
      (fun name => .cast (some name)) (.refl _) (.refl _) h₁ fun _ _ hname => .cast (.some hname)
  next =>
    cases hvalue with
    | none => exact done_trails h u u'
    | some hlike =>
      refine .bind (copyToTarget_trails h (.var hlike) htarget) ?_
      intro _ _ w₁ w₁' h₁ _ _ _
      exact done_trails h₁ u u'

/-- A variable that is handed to an output parameter is the same for both. -/
theorem passedVariable?_eq (h : S.Alike w w') (hnode : S.node id id') :
    passedVariable? S.tree' w' id' = passedVariable? S.tree w id := by
  unfold passedVariable?
  have hconstruct : w'.construct? id' = w.construct? id := by
    rw [Workspace.construct?, Workspace.construct?, finding_eq h hnode]
  rw [hconstruct]
  split
  next hget =>
    have hother : id ≠ S.site := by
      rintro rfl
      rw [Workspace.construct?, Workspace.finding, h.findings, S.site_construct] at hget
      cases hget
    have hchildren := S.children _ _ hnode hother
    revert hchildren
    cases S.tree.children id <;> cases S.tree'.children id' <;> intro hchildren <;> cases hchildren
    · rfl
    next hfirst _ => rw [List.head?_cons, List.head?_cons, Option.bind_some, Option.bind_some,
        S.tag _ _ hfirst]
  next => rfl

/-- A variable that is handed to an output parameter is a variable of both. -/
theorem shared_of_passed (h : S.Alike w w') (hnode : S.node id id') {name : String}
    (hname : passedVariable? S.tree w id = some name) : S.shared name := by
  unfold passedVariable? at hname
  split at hname
  next hget =>
    have hother : id ≠ S.site := by
      rintro rfl
      rw [Workspace.construct?, Workspace.finding, h.findings, S.site_construct] at hget
      cases hget
    have hchildren := S.children _ _ hnode hother
    revert hname hchildren
    cases S.tree.children id <;> cases S.tree'.children id' <;> intro hname hchildren <;>
      cases hchildren
    · cases hname
    next hfirst _ => exact S.names _ _ _ hfirst hname
  next => cases hname

theorem placeCall_trails (h : S.Alike w w') (operation : String) {operands operands' : List Operand}
    (hoperands : List.Forall₂ (Emit.LikeOperand S.toTwins w.assembly w'.assembly) operands operands')
    (u u' : WorkUnit) :
    Trails S.workspaces S.Faulty (placeCall S.setting operation operands u) w
      (placeCall S.setting operation operands' u') w'
      fun r r' w₁ w₁' => S.SameOutcome w₁ w₁' r r' := by
  refine .bind (emit_trails h (Emit.call_trails h.assembly fun _ _ hlength =>
    (Emit.ForParameters.of_forall₂ hoperands hlength).imp fun _ _ _ => Or.inl)) ?_
  intro _ _ w₁ w₁' h₁ _ _ _
  exact done_trails h₁ u u'

include h hnode hother htarget in
theorem stepCall_trails (hstep : u'.step = u.step) (op : OperationId)
    {arguments arguments' : List Operand}
    (harguments : List.Forall₂ (Emit.LikeOperand S.toTwins w.assembly w'.assembly) arguments
      arguments') :
    Trails S.workspaces S.Faulty (stepCall S.setting S.tree n u op arguments) w
      (stepCall S.setting S.tree' n u' op arguments') w'
      fun r r' w₁ w₁' => S.SameOutcome w₁ w₁' r r' := by
  -- One more argument.
  have hmore : ∀ {a a' : Assembly} {name name' : String}, w.assembly.Keeps a → w'.assembly.Keeps a' →
      Like S.toTwins a a' name name' → List.Forall₂ (Emit.LikeOperand S.toTwins a a')
        (arguments ++ [.var name]) (arguments' ++ [.var name']) := by
    intro a a' name name' hkeeps hkeeps' hname
    exact List.rel_append (harguments.imp fun _ _ ho => ho.mono hkeeps hkeeps') (.cons hname .nil)
  unfold stepCall
  have hargument := forall₂_getElem? (S.children _ _ hnode hother) n
  dsimp only
  revert hargument
  cases (S.tree.children u.node)[n]? <;> cases (S.tree'.children u'.node)[n]? <;>
    intro hargument <;> cases hargument
  · cases (S.catalog.operation op).returnType? with
    | none => exact placeCall_trails h _ harguments u u'
    | some type =>
      revert htarget
      cases u.target <;> cases u'.target <;> intro htarget <;> cases htarget
      · refine .bind (unitRent_trails h u u' type) ?_
        rintro _ _ w₁ w₁' h₁ hkeeps hkeeps' ⟨name, name', rfl, rfl, hname⟩
        exact placeCall_trails h₁ _ (hmore hkeeps hkeeps' hname) _ _
      next hlike => exact placeCall_trails h _ (hmore (.refl _) (.refl _) hlike) _ _
  next argument argument' hargument =>
    refine .get_bind ?_
    rw [passedVariable?_eq h hargument]
    cases hpassed : (if (((S.catalog.operation op).parameters[n]?.elim Direction.input
        (·.direction)) = .input) then none else passedVariable? S.tree w argument) with
    | some name =>
      have hshared : S.shared name := by
        split at hpassed
        next => cases hpassed
        next => exact shared_of_passed h hargument hpassed
      exact .pure h (.again (sameUnit_of hnode hother htarget hstep rfl rfl rfl rfl (.refl _)
        (.refl _) (.call op (hmore (.refl _) (.refl _) (Or.inl ⟨rfl, hshared⟩)))))
    | none =>
      exact descendTo_trails hnode hother htarget hargument hstep
        (fun name => .call op (arguments ++ [.var name]))
        (fun name => .call op (arguments' ++ [.var name])) (.refl _) (.refl _) h
        fun hkeeps hkeeps' hname => .call op (hmore hkeeps hkeeps' hname)

/-! ### Filling an array

The array is made in the target or in a temporary (`createArray_trails`), and filled element by
element (`setElement_trails`). These are the only operations that may be handed slots of
different types. -/

theorem ofExcept_trails (h : S.Alike w w') {α : Type} (outcome : Except BuildError α) :
    Trails S.workspaces S.Faulty (Compile.emit (Generation.ofExcept outcome)) w
      (Compile.emit (Generation.ofExcept outcome)) w' fun r r' _ _ => r' = r := by
  refine emit_trails h (P := fun r r' _ _ => r' = r) ?_
  cases outcome with
  | error e => exact .throw
  | ok r => exact .pure h.assembly rfl

/-- Both make an array. -/
theorem createArray_trails (h : S.Alike w w') (harray : S.Fillable w.assembly w'.assembly id x x')
    (element length : Value) :
    Trails S.workspaces S.Faulty (Compile.emit (Emit.call S.setting Manifest.arrayCreate
        [.const element, .const length, .var x])) w
      (Compile.emit (Emit.call S.setting Manifest.arrayCreate
        [.const element, .const length, .var x'])) w'
      fun _ _ w₁ w₁' => S.Made w₁.assembly w₁'.assembly id x x' := by
  have hcall : Trails S.assemblies S.Excused (Emit.call S.setting Manifest.arrayCreate
      [.const element, .const length, .var x]) w.assembly (Emit.call S.setting Manifest.arrayCreate
      [.const element, .const length, .var x']) w'.assembly fun _ _ _ _ => True := by
    refine Emit.call_trails h.assembly fun op hop hlength => ?_
    match hparameters : op.parameters, hlength with
    | [_, _, p], _ =>
      exact .cons (Or.inl rfl) (.cons (Or.inl rfl) (.cons
        (harray.serves hop (by rw [hparameters]; rfl)) .nil))
  -- A call leaves no argument without a slot.
  refine emit_trails h (P := fun _ _ a₁ a₁' => S.Made a₁ a₁' id x x') (hcall.with_both.imp ?_)
  rintro _ _ a₁ a₁' ha₁ hkeeps hkeeps' ⟨hyields, hyields', -⟩
  exact (harray.mono hkeeps hkeeps').made ha₁ (Emit.call_there rfl hyields (by simp))
    (Emit.call_there rfl hyields' (by simp))

/-- Both store an element. -/
theorem setElement_trails (h : S.Alike w w') (harray : S.Made w.assembly w'.assembly id x x')
    (helements : S.tree.children id ≠ []) {scratch scratch' : String}
    (hscratch : Like S.toTwins w.assembly w'.assembly scratch scratch') (index : Value) :
    Trails S.workspaces S.Faulty (Compile.emit (Emit.call S.setting Manifest.arraySetValue
        [.var x, .var scratch, .const index])) w
      (Compile.emit (Emit.call S.setting Manifest.arraySetValue
        [.var x', .var scratch', .const index])) w' fun _ _ _ _ => True := by
  refine emit_trails h (Emit.call_trails h.assembly fun op hop hlength => ?_)
  match hparameters : op.parameters, hlength with
  | [_, _, _], _ =>
    exact .cons (harray.serves helements hop (by rw [hparameters]; rfl))
      (.cons (Or.inl hscratch) (.cons (Or.inl rfl) .nil))

variable (u u') in
include hnode hother in
theorem fillNext_trails (h : S.Alike w w') (hstep : u'.step = u.step) (type : TypeId)
    {slots slots' : Option (String × String)}
    (htarget : Option.Rel (S.Fillable w.assembly w'.assembly u.node) u.target u'.target)
    (hslots : Option.Rel (fun s s' => S.Made w.assembly w'.assembly u.node s.1 s'.1 ∧
      Like S.toTwins w.assembly w'.assembly s.2 s'.2) slots slots') :
    Trails S.workspaces S.Faulty (fillNext (S.tree.children u.node) n u type slots) w
      (fillNext (S.tree'.children u'.node) n u' type slots') w'
      fun r r' w₁ w₁' => S.SameOutcome w₁ w₁' r r' := by
  unfold fillNext
  have helement := forall₂_getElem? (S.children _ _ hnode hother) n
  revert helement
  cases hfound : (S.tree.children u.node)[n]? <;> cases (S.tree'.children u'.node)[n]? <;>
    intro helement <;> cases helement
  · exact done_trails h u u'
  next hchild =>
    cases hslots with
    | none => exact done_trails h u u'
    | some hpair =>
      obtain ⟨harray, hscratch⟩ := hpair
      refine .pure h (.descend hchild (.some hscratch)
        ⟨hnode, hother, hstep, htarget, .arrayFill type harray hscratch ?_⟩)
      exact List.ne_nil_of_mem (List.mem_of_getElem? hfound)

include h hnode hother in
theorem stepArrayFill_trails (hstep : u'.step = u.step) (type : TypeId)
    {slots slots' : Option (String × String)}
    (htarget : Option.Rel (S.Fillable w.assembly w'.assembly u.node) u.target u'.target)
    (htask : S.SameTask w.assembly w'.assembly u.node (.arrayFill type slots)
      (.arrayFill type slots')) :
    Trails S.workspaces S.Faulty (stepArrayFill S.setting S.tree n u type slots) w
      (stepArrayFill S.setting S.tree' n u' type slots') w'
      fun r r' w₁ w₁' => S.SameOutcome w₁ w₁' r r' := by
  have hlength := (S.children _ _ hnode hother).length_eq
  have htarget_mono : ∀ {w₁ w₁' : Workspace}, w.assembly.Keeps w₁.assembly →
      w'.assembly.Keeps w₁'.assembly →
      Option.Rel (S.Fillable w₁.assembly w₁'.assembly u.node) u.target u'.target :=
    fun hkeeps hkeeps' => Option.Rel.imp htarget fun _ _ h => h.mono hkeeps hkeeps'
  -- The array is made in the target, or in a temporary of its own.
  have hmake : ∀ (temps temps' : List String) {array array' : String} {w₁ w₁' : Workspace},
      S.Alike w₁ w₁' → w.assembly.Keeps w₁.assembly → w'.assembly.Keeps w₁'.assembly →
      S.Fillable w₁.assembly w₁'.assembly u.node array array' →
      Trails S.workspaces S.Faulty
        (makeArray S.setting (S.tree.children u.node) { u with temps := temps } type array) w₁
        (makeArray S.setting (S.tree'.children u'.node) { u' with temps := temps' } type array') w₁'
        fun r r' w₁ w₁' => S.SameOutcome w₁ w₁' r r' := by
    intro temps temps' array array' w₁ w₁' h₁ hkeeps₁ hkeeps₁' harray
    unfold makeArray
    rw [← hlength]
    refine .bind (unitRent_trails h₁ _ _ _) ?_
    rintro _ _ w₂ w₂' h₂ hkeeps₂ hkeeps₂' ⟨scratch, scratch', rfl, rfl, hscratch⟩
    refine .bind (ofExcept_trails h₂ _) ?_
    rintro _ length w₃ w₃' h₃ hkeeps₃ hkeeps₃' rfl
    have harray₃ := (harray.mono hkeeps₂ hkeeps₂').mono hkeeps₃ hkeeps₃'
    refine .bind (createArray_trails h₃ harray₃ _ _) ?_
    intro _ _ w₄ w₄' h₄ hkeeps₄ hkeeps₄' hmade
    have hkeeps := hkeeps₁.trans (hkeeps₂.trans (hkeeps₃.trans hkeeps₄))
    have hkeeps' := hkeeps₁'.trans (hkeeps₂'.trans (hkeeps₃'.trans hkeeps₄'))
    rw [pure_bind, pure_bind]
    exact fillNext_trails { u with temps := temps ++ [scratch] }
      { u' with temps := temps' ++ [scratch'] } hnode hother h₄ hstep type
      (htarget_mono hkeeps hkeeps') (.some ⟨hmade,
        (hscratch.mono hkeeps₃ hkeeps₃').mono hkeeps₄ hkeeps₄'⟩)
  unfold stepArrayFill
  dsimp only
  cases n with
  | zero =>
    revert htarget
    cases htarget₁ : u.target <;> cases htarget₁' : u'.target <;> intro htarget <;> cases htarget
    · refine .bind (unitRent_trails h u u' type) ?_
      rintro _ _ w₁ w₁' h₁ hkeeps₁ hkeeps₁' ⟨array, array', rfl, rfl, harray⟩
      exact hmake _ _ h₁ hkeeps₁ hkeeps₁' (Or.inl harray)
    · exact hmake u.temps u'.temps h (.refl _) (.refl _) ‹_›
  | succ n =>
    cases htask with
    | arrayStart => exact fillNext_trails u u' hnode hother h hstep type htarget .none
    | arrayFill type harray hscratch helements =>
      refine .bind (ofExcept_trails h _) ?_
      rintro _ index w₁ w₁' h₁ hkeeps₁ hkeeps₁' rfl
      refine .bind (setElement_trails h₁ (harray.mono hkeeps₁ hkeeps₁') helements
        (hscratch.mono hkeeps₁ hkeeps₁') _) ?_
      intro _ _ w₂ w₂' h₂ hkeeps₂ hkeeps₂' _
      have hkeeps := hkeeps₁.trans hkeeps₂
      have hkeeps' := hkeeps₁'.trans hkeeps₂'
      rw [pure_bind, pure_bind]
      exact fillNext_trails u u' hnode hother h₂ hstep type (htarget_mono hkeeps hkeeps')
        (.some ⟨harray.mono hkeeps hkeeps', hscratch.mono hkeeps hkeeps'⟩)

/-! ### Events

Entry points correspond (`EntryPoint.Alike`): they are at the same stage, and the jumps that wait
there are of the same rank. So both call in the same way, and both begin and end a block in the
same way. -/

theorem finishCall_trails (h : S.Alike w w') {entry entry' : EntryPoint}
    (hentry : EntryPoint.Alike w.assembly w'.assembly entry entry') {target target' : Option String}
    (htarget : Option.Rel (Like S.toTwins w.assembly w'.assembly) target target') :
    Trails S.workspaces S.Faulty (finishCall S.setting entry target) w
      (finishCall S.setting entry' target') w' fun _ _ _ _ => True := by
  refine .bind (copy_trails h (.const rfl) (Or.inr hentry.pointer)) ?_
  intro _ _ w₁ w₁' h₁ hkeeps₁ hkeeps₁' _
  cases htarget with
  | none => exact .pure h₁ trivial
  | some hlike =>
    refine .bind (copy_trails h₁ (.var (Or.inl ⟨rfl, S.returnValue⟩))
      (hlike.mono hkeeps₁ hkeeps₁')) ?_
    intro _ _ w₂ w₂' h₂ _ _ _
    exact .pure h₂ trivial

theorem callEvent_trails (h : S.Alike w w') (label : String) {target target' : Option String}
    (htarget : Option.Rel (Like S.toTwins w.assembly w'.assembly) target target') :
    Trails S.workspaces S.Faulty (callEvent S.setting label target) w
      (callEvent S.setting label target') w' fun _ _ _ _ => True := by
  refine .get_bind ?_
  have hentry := h.entryPoints label
  revert hentry
  cases w.entryPoints.get? label <;> cases w'.entryPoints.get? label <;> intro hentry <;>
    cases hentry
  · exact .throw
  next entry entry' hentry =>
    refine .bind (emit_trails h (Emit.copyOffset_trails h.assembly hentry.pointer _)) ?_
    intro _ _ w₁ w₁' h₁ hkeeps₁ hkeeps₁' _
    have hreturn : ∀ {w₂ w₂' : Workspace}, S.Alike w₂ w₂' → w₁.assembly.Keeps w₂.assembly →
        w₁'.assembly.Keeps w₂'.assembly →
        Trails S.workspaces S.Faulty (finishCall S.setting entry target) w₂
          (finishCall S.setting entry' target') w₂' fun _ _ _ _ => True := by
      intro w₂ w₂' h₂ hkeeps₂ hkeeps₂'
      have hkeeps := hkeeps₁.trans hkeeps₂
      have hkeeps' := hkeeps₁'.trans hkeeps₂'
      exact finishCall_trails h₂ (hentry.mono hkeeps hkeeps') (target_mono htarget hkeeps hkeeps')
    have hstart := hentry.bodyStart
    revert hstart
    cases entry.bodyStart <;> cases entry'.bodyStart <;> intro hstart <;> cases hstart
    · refine .bind (jump_trails h₁) ?_
      intro jump jump' w₂ w₂' h₂ hkeeps₂ hkeeps₂' hjump
      refine .bind (modifyEntry_trails h₂ label fun entry entry' hentry =>
        ⟨hentry.pointer, hentry.blocks, hentry.compiled, hentry.bodyStart, hentry.chain,
          List.rel_append hentry.landingPoints (.cons hjump .nil)⟩) ?_
      rintro _ _ w₃ w₃' h₃ hkeeps₃ hkeeps₃' -
      exact hreturn h₃ (hkeeps₂.trans hkeeps₃) (hkeeps₂'.trans hkeeps₃')
    next start start' hresolved =>
      refine .bind (emit_trails h₁ (Emit.instruction_trails h₁.assembly (.jump start)
        (.jump start') ?_ rfl)) ?_
      · simp [Instruction.pending?, Instruction.target?, hresolved.1, hresolved.2]
      · intro _ _ w₂ w₂' h₂ hkeeps₂ hkeeps₂' _
        exact hreturn h₂ hkeeps₂ hkeeps₂'

theorem beginBlock_trails (h : S.Alike w w') (label : String) :
    Trails S.workspaces S.Faulty (beginBlock label) w (beginBlock label) w'
      fun _ _ _ _ => True := by
  refine .bind (lastInstruction_trails h) ?_
  rintro last last' _ _ h₁ - - ⟨rfl, rfl⟩
  refine .bind (entryAt_trails h₁ label) ?_
  rintro entry entry' _ _ h₂ - - ⟨hentry, rfl, rfl⟩
  rw [hentry.compiled]
  split
  next =>
    refine .bind (modifyEntry_trails h₂ label fun entry entry' hentry =>
      ⟨hentry.pointer, hentry.blocks, hentry.compiled, .some ⟨by simp, by simp⟩, hentry.chain,
        .nil⟩) ?_
    rintro _ _ w₃ w₃' h₃ hkeeps₃ hkeeps₃' -
    refine .bind (emit_trails h₃ (Emit.entryPoint_trails h₃.assembly label)) ?_
    intro _ _ w₄ w₄' h₄ hkeeps₄ hkeeps₄' _
    exact patchAll_trails h₄ (hentry.landingPoints.imp fun _ _ hjump =>
      (hjump.mono hkeeps₃ hkeeps₃').mono hkeeps₄ hkeeps₄') last last'
  next =>
    refine .bind (modifyEntry_trails h₂ label fun entry entry' hentry =>
      ⟨hentry.pointer, hentry.blocks, hentry.compiled, hentry.bodyStart, .none,
        hentry.landingPoints⟩) ?_
    rintro _ _ w₃ w₃' h₃ hkeeps₃ hkeeps₃' -
    exact patchAll_trails h₃ ((forall₂_toList hentry.chain).imp fun _ _ hjump =>
      hjump.mono hkeeps₃ hkeeps₃') last last'

theorem endBlock_trails (h : S.Alike w w') (label : String) :
    Trails S.workspaces S.Faulty (endBlock S.setting label) w (endBlock S.setting label) w'
      fun _ _ _ _ => True := by
  refine .bind (entryAt_trails h label) ?_
  rintro entry entry' _ _ h₁ - - ⟨hentry, rfl, rfl⟩
  dsimp only
  rw [hentry.compiled, hentry.blocks]
  refine .bind (modifyEntry_trails h₁ label fun entry entry' hentry =>
    ⟨hentry.pointer, hentry.blocks, rfl, hentry.bodyStart, hentry.chain, hentry.landingPoints⟩) ?_
  rintro _ _ w₂ w₂' h₂ hkeeps₂ hkeeps₂' -
  split
  next =>
    refine .bind (emit_trails h₂ (Emit.jumpIndirect_trails h₂.assembly
      (Or.inr (hentry.pointer.mono hkeeps₂ hkeeps₂')))) ?_
    intro _ _ w₃ w₃' h₃ _ _ _
    exact .pure h₃ trivial
  next =>
    refine .bind (jump_trails h₂) ?_
    intro jump jump' w₃ w₃' h₃ _ _ hjump
    exact Trails.imp (modifyEntry_trails h₃ label fun entry entry' hentry =>
      ⟨hentry.pointer, hentry.blocks, hentry.compiled, hentry.bodyStart, .some hjump,
        hentry.landingPoints⟩) fun _ _ _ _ _ _ _ _ => trivial

include hnode hother in
/-- A block begins in the same way whether it has been called before or not. -/
theorem enterBlock_trails (h₁ : S.Alike w₁ w₁') (label : String) {v v' : WorkUnit}
    (hunit : S.SameUnit w₁ w₁' v v') :
    Trails S.workspaces S.Faulty (enterBlock S.tree u.node label v) w₁
      (enterBlock S.tree' u'.node label v') w₁'
      fun r r' w₁ w₁' => S.SameOutcome w₁ w₁' r r' := by
  refine .bind (beginBlock_trails h₁ label) ?_
  intro _ _ w₂ w₂' h₂ hkeeps₂ hkeeps₂' _
  refine .bind (childAt_trails h₂ hnode hother _ _) ?_
  rintro body body' _ _ h₃ - - ⟨hbody, rfl, rfl⟩
  exact .pure h₃ (.descend hbody (.some (Or.inl ⟨rfl, S.returnValue⟩))
    (hunit.mono hkeeps₂ hkeeps₂'))

include h hnode hother htarget in
theorem stepEvent_trails (hstep : u'.step = u.step) {skip skip' : Option InstructionId}
    (hskip : Option.Rel (w.assembly.SameJump w'.assembly) skip skip') :
    Trails S.workspaces S.Faulty (stepEvent S.setting S.tree n u skip) w
      (stepEvent S.setting S.tree' n u' skip') w'
      fun r r' w₁ w₁' => S.SameOutcome w₁ w₁' r r' := by
  unfold stepEvent
  refine .bind (childAt_trails h hnode hother _ _) ?_
  rintro first first' w w' h₁ - - ⟨hfirst, rfl, rfl⟩
  refine .bind (nameAt_trails h₁ hfirst _) ?_
  rintro _ label w w' h₂ - - ⟨rfl, -, -, rfl, rfl⟩
  split
  next =>
    have hunit : ∀ {jump jump' : Option InstructionId} {w₁ w₁' : Workspace},
        w.assembly.Keeps w₁.assembly → w'.assembly.Keeps w₁'.assembly →
        Option.Rel (w₁.assembly.SameJump w₁'.assembly) jump jump' →
        S.SameUnit w₁ w₁' { u with task := .event jump } { u' with task := .event jump' } :=
      fun hkeeps hkeeps' hjump => sameUnit_of hnode hother htarget hstep rfl rfl rfl rfl hkeeps
        hkeeps' (.event hjump)
    revert htarget
    cases htarget₁ : u.target <;> cases htarget₁' : u'.target <;> intro htarget <;> cases htarget <;>
      rw [htarget₁, htarget₁'] at hunit
    · exact enterBlock_trails hnode hother h₂ label (hunit (.refl _) (.refl _) .none)
    next hlike =>
      refine .bind (callEvent_trails h₂ label (.some hlike)) ?_
      intro _ _ w₁ w₁' h₃ hkeeps₁ hkeeps₁' _
      refine .bind (jump_trails h₃) ?_
      intro jump jump' w₂ w₂' h₄ hkeeps₂ hkeeps₂' hjump
      exact enterBlock_trails hnode hother h₄ label
        (hunit (hkeeps₁.trans hkeeps₂) (hkeeps₁'.trans hkeeps₂') (.some hjump))
  next =>
    refine .bind (endBlock_trails h₂ label) ?_
    intro _ _ w₁ w₁' h₃ hkeeps₁ hkeeps₁' _
    refine .bind (lastInstruction_trails h₃) ?_
    rintro last last' _ _ h₄ - - ⟨rfl, rfl⟩
    refine .bind (patchAll_trails h₄ ((forall₂_toList hskip).imp fun _ _ hjump =>
      hjump.mono hkeeps₁ hkeeps₁') last last') ?_
    intro _ _ w₂ w₂' h₅ _ _ _
    exact .pure h₅ (.done u u')

/-! ### Inline assembly

What is read of an instruction is the text of its node and of the first child below it, which are
the same in both trees. The assignment is no instruction, so it is refused in both. -/

/-- The first child of a node that is not the assignment, and its text. -/
theorem firstName_eq (hnode : S.node id id') (hother : id ≠ S.site) :
    ((S.tree'.children id').head?.bind fun child => (S.tree'.tag child).text?) =
        ((S.tree.children id).head?.bind fun child => (S.tree.tag child).text?) ∧
      ∀ name, ((S.tree.children id).head?.bind fun child => (S.tree.tag child).text?) = some name →
        S.shared name := by
  have hchildren := S.children _ _ hnode hother
  revert hchildren
  cases S.tree.children id <;> cases S.tree'.children id' <;> intro hchildren <;> cases hchildren
  · exact ⟨rfl, fun _ hname => by cases hname⟩
  next hfirst _ =>
    simp only [List.head?_cons, Option.bind_some]
    exact ⟨by rw [S.tag _ _ hfirst], fun name hname => S.names _ _ _ hfirst hname⟩

theorem inlineName_eq (hnode : S.node id id') (hother : id ≠ S.site) (mnemonic : String) :
    inlineName S.tree' mnemonic id' = inlineName S.tree mnemonic id ∧
      ∀ name, inlineName S.tree mnemonic id = .ok name → S.shared name := by
  obtain ⟨heq, hshared⟩ := firstName_eq hnode hother
  unfold inlineName
  rw [heq]
  refine ⟨rfl, fun name hname => hshared name ?_⟩
  split at hname
  next found hfound =>
    rw [hfound, Except.ok.inj hname]
  next => cases hname

theorem inlineAddress_eq (hnode : S.node id id') (hother : id ≠ S.site) (mnemonic : String) :
    inlineAddress S.tree' mnemonic id' = inlineAddress S.tree mnemonic id := by
  have hchildren := S.children _ _ hnode hother
  unfold inlineAddress
  revert hchildren
  cases S.tree.children id <;> cases S.tree'.children id' <;> intro hchildren <;> cases hchildren
  · rfl
  next hfirst _ =>
    simp only [List.head?_cons]
    rw [S.tag _ _ hfirst]

theorem inlineInstruction_trails (h : Assembly.Alike S.toTwins a a') (hnode : S.node id id') :
    Trails S.assemblies S.Excused (inlineInstruction S.setting S.tree id) a
      (inlineInstruction S.setting S.tree' id') a' fun _ _ _ _ => True := by
  -- An operation whose number is not used.
  have hlast : ∀ {a a' : Assembly} {act act' : Emit InstructionId}
      {P : InstructionId → InstructionId → Assembly → Assembly → Prop},
      Trails S.assemblies S.Excused act a act' a' P →
      Trails S.assemblies S.Excused (do let _ ← act) a (do let _ ← act') a' fun _ _ _ _ => True := by
    intro a a' act act' P hact
    refine .bind hact ?_
    intro _ _ a₁ a₁' h₁ _ _ _
    exact .pure h₁ trivial
  have hofExcept : ∀ {α : Type} (outcome : Except BuildError α) (next next' : α → Emit Unit),
      (∀ r, outcome = .ok r → Trails S.assemblies S.Excused (next r) a (next' r) a'
        fun _ _ _ _ => True) →
      Trails S.assemblies S.Excused (Generation.ofExcept outcome >>= next) a
        (Generation.ofExcept outcome >>= next') a' fun _ _ _ _ => True := by
    intro α outcome next next' hnext
    cases outcome with
    | error e => exact .throw_bind
    | ok r =>
      rw [Generation.ofExcept, pure_bind, pure_bind]
      exact hnext r rfl
  unfold inlineInstruction
  rw [S.tag _ _ hnode]
  cases htext : (S.tree.tag id).text? with
  | none => exact .throw
  | some mnemonic =>
    dsimp only
    by_cases hother : id = S.site
    · -- The name of an assignment is no mnemonic.
      rw [hother, S.site_tag] at htext
      obtain rfl := Option.some.inj htext
      exact .throw
    · obtain ⟨hname, hshared⟩ := inlineName_eq hnode hother mnemonic
      rw [hname, inlineAddress_eq hnode hother]
      split
      next => exact hlast (Emit.instruction_trails h _ _ rfl rfl)
      next => exact hlast (Emit.instruction_trails h _ _ rfl rfl)
      next => exact hlast (Emit.instruction_trails h _ _ rfl rfl)
      next =>
        exact hofExcept _ _ _ fun name hok =>
          hlast (Emit.push_trails h (.var (Or.inl ⟨rfl, hshared name hok⟩)))
      next => exact hofExcept _ _ _ fun address _ => hlast (Emit.instruction_trails h _ _ rfl rfl)
      next => exact hofExcept _ _ _ fun address _ => hlast (Emit.instruction_trails h _ _ rfl rfl)
      next =>
        exact hofExcept _ _ _ fun name hok =>
          hlast (Emit.jumpIndirect_trails h (Or.inl ⟨rfl, hshared name hok⟩))
      next => exact hofExcept _ _ _ fun name _ => hlast (Emit.callPushed_trails h name)
      next => exact .pure h trivial
      next => exact .throw

theorem inlineInstructions_trails (h : Assembly.Alike S.toTwins a a') {ids ids' : List NodeId}
    (hids : List.Forall₂ S.node ids ids') :
    Trails S.assemblies S.Excused (inlineInstructions S.setting S.tree ids) a
      (inlineInstructions S.setting S.tree' ids') a' fun _ _ _ _ => True := by
  induction hids generalizing a a' with
  | nil => exact .pure h trivial
  | cons hid _ ih =>
    refine .bind (inlineInstruction_trails h hid) ?_
    intro _ _ a₁ a₁' h₁ _ _ _
    exact ih h₁

end Steps

/-! ## Nodes

A node is compiled alike once all its steps are (`step_trails`) and the nodes below it are. So
the proof goes by induction on the weight of the tree below a node (`compiles`), and for one node
by induction on what is left of its unit to do (`resume_trails`). The assignment is the node
where the trees differ, and is left to the hypothesis. -/

/-- A step of a unit is followed by one of the unit that corresponds. -/
theorem step_trails (h : S.Alike w w') (hunit : S.SameUnit w w' u u') :
    Trails S.workspaces S.Faulty (step S.setting S.tree u) w (step S.setting S.tree' u') w'
      fun r r' w₁ w₁' => S.SameOutcome w₁ w₁' r r' := by
  obtain ⟨hnode, hother, hstep, htarget, htask⟩ := hunit
  unfold step
  rw [hstep]
  dsimp -proj only
  -- The units that the steps go on with have taken one step more.
  generalize hv : { u with step := u.step + 1 } = v
  generalize hv' : { u' with step := u.step + 1 } = v'
  replace hnode : S.node v.node v'.node := by rw [← hv, ← hv']; exact hnode
  replace hother : v.node ≠ S.site := by rw [← hv]; exact hother
  replace hstep : v'.step = v.step := by rw [← hv, ← hv']
  replace htarget : Option.Rel (S.Destination w.assembly w'.assembly v.node v.task) v.target
      v'.target := by rw [← hv, ← hv']; exact htarget
  replace htask : S.SameTask w.assembly w'.assembly v.node v.task v'.task := by
    rw [← hv, ← hv']; exact htask
  clear hv hv'
  generalize htask₁ : v.task = task at htarget htask ⊢
  generalize htask₁' : v'.task = task' at htask ⊢
  cases htask with
  | literal => exact stepLiteral_trails h hnode htarget
  | get => exact stepGet_trails h hnode hother htarget
  | set => exact stepSet_trails h hnode hother htarget hstep htask₁ htask₁'
  | declare => exact stepDeclare_trails h hnode hother htarget
  | sequence => exact stepSequence_trails h hnode hother htarget hstep htask₁ htask₁'
  | conditional hcondition hpending hexits =>
    exact stepConditional_trails h hnode hother htarget hstep hcondition hpending hexits
  | loop hcondition hexit => exact stepLoop_trails h hnode hother htarget hstep hcondition hexit
  | call op harguments => exact stepCall_trails h hnode hother htarget hstep op harguments
  | cast hvalue => exact stepCast_trails h hnode hother htarget hstep hvalue
  | arrayStart type =>
    exact stepArrayFill_trails h hnode hother hstep type htarget (.arrayStart type)
  | arrayFill type harray hscratch helements =>
    exact stepArrayFill_trails h hnode hother hstep type htarget
      (.arrayFill type harray hscratch helements)
  | event hskip => exact stepEvent_trails h hnode hother htarget hstep hskip
  | inlineAsm =>
    refine .bind (emit_trails h (inlineInstructions_trails h.assembly
      (S.children _ _ hnode hother))) ?_
    intro _ _ w₁ w₁' h₁ _ _ _
    exact .pure h₁ (.done _ _)
  | callEvent =>
    refine .bind (nameAt_trails h hnode _) ?_
    rintro _ label w w' h₁ - - ⟨rfl, -, -, rfl, rfl⟩
    refine .bind (callEvent_trails h₁ label htarget) ?_
    intro _ _ w₁ w₁' h₂ _ _ _
    exact .pure h₂ (.done _ _)
  | typeOf type =>
    refine .bind (copyToTarget_trails h (.const rfl) htarget) ?_
    intro _ _ w₁ w₁' h₁ _ _ _
    exact .pure h₁ (.done _ _)

/-- The slots in which the values of two nodes can be put. -/
def Targets (S : Variation) (a a' : Assembly) (id : NodeId) (target target' : Option String) : Prop :=
  ∀ construct, (S.findings.getD id {}).construct = some construct →
    Option.Rel (S.Destination a a' id (.ofConstruct construct)) target target'

theorem Targets.of_like {target target' : Option String}
    (h : Option.Rel (Like S.toTwins a a') target target') : S.Targets a a' id target target' :=
  fun _ _ => Option.Rel.imp h fun _ _ hlike => .of_like _ hlike

theorem start_trails (h : S.Alike w w') (hnode : S.node id id') (hother : id ≠ S.site)
    {target target' : Option String}
    (htarget : S.Targets w.assembly w'.assembly id target target') :
    Trails S.workspaces S.Faulty (start S.tree id target) w (start S.tree' id' target') w'
      fun u u' w₁ w₁' => S.SameUnit w₁ w₁' u u' := by
  refine .get_bind ?_
  rw [Workspace.construct?, Workspace.construct?, finding_eq h hnode]
  cases hconstruct : (w.finding id).construct with
  | none => exact .throw
  | some construct =>
    refine .pure h ⟨hnode, hother, rfl, htarget construct ?_, ?_⟩
    · rw [← h.findings]
      exact hconstruct
    · cases construct with
      | conditional => exact .conditional .none .none .nil
      | loop => exact .loop .none .none
      | event => exact .event .none
      | call op => exact .call op .nil
      | cast => exact .cast .none
      | _ => constructor

/-- An error whose fault is excused. -/
def FaultyAt (S : Variation) (e : CompileError) : Prop := S.Faulty e.fault

theorem at_trails {α β : Type} {act : Compile α} {act' : Compile β}
    {P : α → β → Workspace → Workspace → Prop}
    (h : Trails S.workspaces S.Faulty act w act' w' P) (id id' : NodeId) :
    Trails S.workspaces S.FaultyAt (Compilation.at id act) w (Compilation.at id' act') w' P :=
  Trails.adaptExcept h fun _ he => he

/-- A unit whose task is that of its node, and which has no target if no one asks for its value. -/
structure Quiet (S : Variation) (u : WorkUnit) : Prop where
  task : ∃ construct, (S.findings.getD u.node {}).construct = some construct ∧
    u.task.initial = .ofConstruct construct
  target : S.unread u.node → u.target = none

theorem Quiet.start (h : S.Alike w w') {target : Option String}
    (hstart : Yields (start S.tree id target) w u w₁) (htarget : S.unread id → target = none) :
    S.Quiet u := by
  obtain ⟨-, construct, hconstruct, rfl⟩ := start_cases hstart
  refine ⟨⟨construct, ?_, Task.initial_ofConstruct construct⟩, htarget⟩
  rw [← h.findings]
  exact hconstruct

theorem Quiet.step {p : Progress} (h : S.Quiet u)
    (hstep : Yields (step S.setting S.tree u) w (p, u') w₁) : S.Quiet u' := by
  obtain ⟨hnode, -, hinitial, htarget, -⟩ := step_counts hstep
  refine ⟨?_, fun hunread => htarget.trans (h.target (hnode ▸ hunread))⟩
  rw [hnode, hinitial]
  exact h.task

/-- A child whose value no one asks for gets no target. -/
theorem Quiet.descend (ht : S.tree.Linked) (h : S.Quiet u) {child : NodeId} {target : Option String}
    (hstep : Yields (Generation.step S.setting S.tree u) w (.descend child target, u') w₁)
    (hunread : S.unread child) : target = none := by
  obtain ⟨construct, n, hconstruct, hchild, huse⟩ :=
    S.unread_child u.node child (mem_of_descend hstep) hunread
  obtain ⟨other, hother, htask⟩ := h.task
  obtain rfl := Option.some.inj (hother.symm.trans hconstruct)
  obtain ⟨hdrops, hhands⟩ := target_of_descend ht htask hchild hstep
  rcases huse with hdropped | ⟨hhanded, hup⟩
  · exact hdrops hdropped
  · exact (hhands hhanded).trans (h.target hup)

/-- The nodes that correspond to a node compile if it does. -/
def Compiles (S : Variation) (ht : S.tree.Linked) (ht' : S.tree'.Linked) (id : NodeId) : Prop :=
  ∀ id' (w w' : Workspace) target target', S.node id id' → S.Alike w w' →
    S.Targets w.assembly w'.assembly id target target' → (S.unread id → target = none) →
    Trails S.workspaces S.FaultyAt (compileNode S.setting ht id target) w
      (compileNode S.setting ht' id' target') w' fun _ _ _ _ => True

variable {ht : S.tree.Linked} {ht' : S.tree'.Linked}

/-- A unit comes to its end with the unit that corresponds, if the nodes below do. -/
theorem resume_trails (h : S.Alike w w') (hunit : S.SameUnit w w' u u') (hquiet : S.Quiet u)
    (hbelow : ∀ id, 2 * S.tree.weight id < left S.tree u → S.Compiles ht ht' id) :
    Trails S.workspaces S.FaultyAt (resume S.setting ht u) w (resume S.setting ht' u') w'
      fun _ _ _ _ => True := by
  induction hleft : left S.tree u using Nat.strong_induction_on generalizing u u' w w' with
  | _ n ih =>
    subst hleft
    rw [resume_eq, resume_eq]
    refine .bind (at_trails (step_trails h hunit) _ _).with_first ?_
    rintro r r' w₁ w₁' h₁ - - ⟨hyields, houtcome⟩
    have hstep := Compilation.at_iff.mp hyields
    have hquiet₁ := hquiet.step hstep
    cases houtcome with
    | done => exact .pure h₁ trivial
    | again hunit₁ =>
      have hlt := (left_step ht hstep).1 rfl
      exact ih _ hlt h₁ hunit₁ hquiet₁ (fun id hid => hbelow id (hid.trans hlt)) rfl
    | @descend child _ _ _ u₁ _ hchild htarget hunit₁ =>
      obtain ⟨-, hlt⟩ := (left_step ht hstep).2 _ _ rfl
      have hone := one_le_left (t := S.tree) u₁
      have hweight := S.tree.one_le_weight child
      refine .bind (hbelow child (by omega) _ _ _ _ _ hchild h₁ (.of_like htarget)
        (hquiet.descend ht hstep)) ?_
      intro _ _ w₂ w₂' h₂ hkeeps hkeeps' _
      exact ih _ (by omega) h₂ (hunit₁.mono hkeeps hkeeps') hquiet₁
        (fun id hid => hbelow id (by omega)) rfl

/-- If the assignment compiles once the nodes below it do, every node does. -/
theorem compiles (ht : S.tree.Linked) (ht' : S.tree'.Linked)
    (hsite : (∀ id, S.tree.weight id < S.tree.weight S.site → S.Compiles ht ht' id) →
      S.Compiles ht ht' S.site) (id : NodeId) : S.Compiles ht ht' id := by
  induction hweight : S.tree.weight id using Nat.strong_induction_on generalizing id with
  | _ n ih =>
    subst hweight
    by_cases hid : id = S.site
    · subst hid
      exact hsite fun other hlt => ih _ hlt other rfl
    · intro id' w w' target target' hnode h htarget hunread
      rw [compileNode_eq, compileNode_eq]
      refine .bind (at_trails (start_trails h hnode hid htarget) _ _).with_first ?_
      rintro u u' w₁ w₁' h₁ - - ⟨hyields, hunit⟩
      have hstart := Compilation.at_iff.mp hyields
      have hleft := left_start_lt ht hstart
      exact resume_trails h₁ hunit (.start h hstart hunread) fun other hlt =>
        ih _ (by omega) other rfl

end Variation

end SexprAsm
