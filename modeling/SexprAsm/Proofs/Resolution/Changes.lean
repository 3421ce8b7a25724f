import SexprAsm.Proofs.Resolution
import SexprAsm.Proofs.Workspace.Changes

/-!
# What resolution changes

The first pass of resolution declares variables and entry points; the second one looks variables up
and records what it finds (`Resolution.Consult`). In both, a predefined name that is asked for gets
its slot. Neither pass makes the slot of a literal or rents a temporary, not even on the way to a
failure.
-/

namespace SexprAsm.Resolution

open Relation

/-- A single change by the second pass. -/
inductive Consult (cfg : Setting) : Workspace → Workspace → Prop where
  /-- A predefined name gets its slot. -/
  | ask {w : Workspace} {heap : Heap} {name : String} {type : Option TypeId}
      (fresh : w.assembly.heap.slots.get? name = none)
      (define : w.assembly.heap.define cfg.catalog name type {} none = .ok heap) :
      Consult cfg w { w with assembly := { w.assembly with heap := heap } }
  | record (w : Workspace) (id : NodeId) (found : Finding) : Consult cfg w (w.record id found)

/-- A single change by resolution. -/
inductive Change (cfg : Setting) : Workspace → Workspace → Prop where
  | consult {w w' : Workspace} (h : Consult cfg w w') : Change cfg w w'
  /-- A slot is defined, or defined again. -/
  | declare {w : Workspace} {heap : Heap} {name : String} {type : Option TypeId}
      {attributes : Attributes} {value : Option Value} (constant : attributes.constant = false)
      (define : w.assembly.heap.define cfg.catalog name type attributes value = .ok heap) :
      Change cfg w { w with assembly := { w.assembly with heap := heap } }
  | note (w : Workspace) (entryPoints : NameMap EntryPoint) :
      Change cfg w { w with entryPoints := entryPoints }

/-- A workspace comes from another one by changes of resolution. -/
def Proceeds (cfg : Setting) : Workspace → Workspace → Prop := ReflTransGen (Change cfg)

variable {cfg : Setting} {t : Tree} {w w' : Workspace}

/-! ## The second pass -/

theorem typeOf?_consults (name : String) :
    MadeOf (Consult cfg) (Build.emit (Emit.typeOf? cfg name)) w := by
  refine .emit (fun a a' (h : ∃ heap type, a.heap.slots.get? name = none ∧
    a.heap.define cfg.catalog name type {} none = .ok heap ∧ a' = { a with heap := heap }) => ?_) ?_
  · obtain ⟨heap, type, hfresh, hdefine, rfl⟩ := h
    exact .ask (w := { w with assembly := a }) hfresh hdefine
  · refine .onHeap fun found heap h => ?_
    rcases (Heap.typeOf?_ok h).2 with ⟨rfl, -⟩ | ⟨hnone, pinned, -, hdefine⟩
    · exact .refl
    · exact .single ⟨heap, _, hnone, hdefine, rfl⟩

theorem nameAt_consults (id : NodeId) (construct : String) :
    MadeOf (Consult cfg) (Compile.nameAt t id construct) w := by
  unfold Compile.nameAt
  split
  · exact .check _ _ _
  · exact .throw _

theorem sequenceFinding_consults (children : List NodeId) :
    MadeOf (Consult cfg) (sequenceFinding cfg t children) w := by
  have hrest : ∀ {w : Workspace}, MadeOf (Consult cfg) (do
      let w ← get
      return ⟨some .sequence, children.getLast?.bind w.nodeType?⟩ : Compile Finding) w :=
    .bind .get fun _ _ _ => .pure _
  unfold sequenceFinding
  split
  · refine .bind .get fun known w' _ => ?_
    split
    · exact .bind (.modify (.record _ _ _)) fun _ _ _ => hrest
    · exact hrest
  · exact hrest

theorem taggedFinding_consults (tag : String) (children : List NodeId) :
    MadeOf (Consult cfg) (taggedFinding cfg t tag children) w := by
  refine .bind .get fun known w' _ => ?_
  dsimp only
  split
  · exact .bind (nameAt_consults _ _) fun _ _ _ => .pure _
  split
  · exact .pure _
  split
  · exact .pure _
  split
  next child =>
    split
    · refine .bind (nameAt_consults _ _) fun name _ _ => ?_
      refine .bind (.build (typeOf?_consults name)) fun found _ _ => ?_
      split
      · exact .pure _
      · exact .throw _
    split
    · refine .bind (nameAt_consults _ _) fun name _ _ => ?_
      split
      · exact .pure _
      · exact .throw _
    · exact .pure _
  next first second =>
    split
    · exact .bind (nameAt_consults _ _) fun name _ _ =>
        .bind (.build (typeOf?_consults name)) fun _ _ _ => .pure _
    split
    · exact .pure _
    split
    · exact .pure _
    · exact .pure _
  next => exact .pure _

theorem classify_consults (id : NodeId) : MadeOf (Consult cfg) (classify cfg t id) w := by
  unfold classify
  dsimp only
  split
  · exact .pure _
  split
  · exact sequenceFinding_consults _
  · exact taggedFinding_consults _ _
  · exact .pure _

theorem classifyAll_consults (ids : List NodeId) :
    MadeOf (Consult cfg) (classifyAll cfg t ids) w := by
  induction ids generalizing w with
  | nil => exact .pure _
  | cons id ids ih =>
    exact .bind (.at (classify_consults id)) fun _ _ _ =>
      .bind (.modify (.record _ _ _)) fun _ _ _ => ih

/-- The second pass leaves slots and entry points as they are. -/
theorem Consult.keeps (h : Consult cfg w w') :
    w.assembly.heap.Extends w'.assembly.heap ∧ w'.entryPoints = w.entryPoints := by
  cases h with
  | ask fresh define => exact ⟨(Heap.define_fresh define fresh).1, rfl⟩
  | record => exact ⟨.refl _, rfl⟩

theorem keeps_of_consults (h : ReflTransGen (Consult cfg) w w') :
    w.assembly.heap.Extends w'.assembly.heap ∧ w'.entryPoints = w.entryPoints := by
  induction h with
  | refl => exact ⟨.refl _, rfl⟩
  | tail _ hchange ih => exact ⟨ih.1.trans hchange.keeps.1, hchange.keeps.2.trans ih.2⟩

/-- The second pass makes no room for more to be known, and leaves all there is. -/
theorem size_of_consults (h : ReflTransGen (Consult cfg) w w') :
    w'.findings.size = w.findings.size := by
  induction h with
  | refl => rfl
  | tail _ hchange ih =>
    cases hchange with
    | ask fresh define => exact ih
    | record id found => rw [Workspace.record, Array.size_setIfInBounds, ih]

/-! ## The first pass -/

theorem define_changes {name : String} {type : Option TypeId} {attributes : Attributes}
    {value : Option Value} (hconstant : attributes.constant = false) :
    MadeOf (Change cfg) (Build.emit (Emit.define cfg name type attributes value)) w := by
  refine .emit (fun a a' (h : ∃ heap,
    a.heap.define cfg.catalog name type attributes value = .ok heap ∧
      a' = { a with heap := heap }) => ?_) (.define fun heap hdefine => ⟨heap, hdefine, rfl⟩)
  obtain ⟨heap, hdefine, rfl⟩ := h
  exact .declare (w := { w with assembly := a }) hconstant hdefine

theorem consults_change {ε α : Type} {act : EStateM ε Workspace α}
    (h : MadeOf (Consult cfg) act w) : MadeOf (Change cfg) act w :=
  h.mono fun _ _ => .consult

theorem declareVariable_changes (id : NodeId) :
    MadeOf (Change cfg) (declareVariable cfg t id) w := by
  have hexcept : ∀ {α : Type} {w : Workspace} (outcome : Except CompileFault α),
      MadeOf (Change cfg) (declareVariable.ofExcept outcome) w := by
    intro α w outcome
    cases outcome with
    | ok a => exact .pure _
    | error e => exact .throw _
  refine .bind (consults_change (nameAt_consults _ _)) fun name _ _ => ?_
  refine .bind (hexcept _) fun ⟨type, attributes⟩ w₁ hmodifiers => ?_
  have hconstant := modifiers_constant (declareVariable.ofExcept_cases hmodifiers).1 rfl
  dsimp only
  split
  · refine .bind (hexcept _) fun ⟨attributes', value⟩ w₂ hdefault => .build (define_changes ?_)
    exact defaultValue_constant (declareVariable.ofExcept_cases hdefault).1 hconstant
  · exact .bind (.pure _) fun ⟨attributes', value⟩ w₂ hpure => .build (define_changes (by
      obtain ⟨hpair, -⟩ := Yields.pure_iff.mp hpure
      cases hpair
      exact hconstant))

theorem declareEntryPoint_changes (label : String) :
    MadeOf (Change cfg) (Build.declareEntryPoint cfg label) w := by
  have hnote : ∀ {w : Workspace} (entry : EntryPoint), MadeOf (Change cfg) (do
      modify fun w => { w with entryPoints := w.entryPoints.put label entry }
      return entry : Build EntryPoint) w :=
    fun entry => .bind (.modify (.note _ _)) fun _ _ _ => .pure _
  refine .bind .get fun known w₁ _ => ?_
  split
  · exact hnote _
  · refine .bind ?_ fun _ _ _ => hnote _
    refine .bind (.bind .get fun _ _ _ => .pure _) fun tries _ _ => ?_
    refine .bind (Build.firstFree_madeOf fun name => consults_change (typeOf?_consults name)) ?_
    exact fun _ _ _ => .bind (define_changes rfl) fun _ _ _ => .pure _

theorem declareNode_changes (id : NodeId) : MadeOf (Change cfg) (declareNode cfg t id) w := by
  unfold declareNode
  dsimp only
  split
  · exact .pure _
  split
  · exact .bind (declareVariable_changes id) fun _ _ _ => .pure _
  split
  · exact .pure _
  split
  · split
    · exact .bind (consults_change (nameAt_consults _ _)) fun label _ _ =>
        .bind (.build (declareEntryPoint_changes label)) fun _ _ _ => .pure _
    · exact .pure _
  · exact .pure _

theorem declareLevel_changes (ids : List NodeId) :
    MadeOf (Change cfg) (declareLevel cfg t ids) w := by
  induction ids generalizing w with
  | nil => exact .pure _
  | cons id ids ih =>
    exact .bind (.at (declareNode_changes id)) fun _ _ _ => .bind ih fun _ _ _ => .pure _

theorem declareLevels_changes (depth : Nat) (ids : List NodeId) :
    MadeOf (Change cfg) (declareLevels cfg t depth ids) w := by
  induction depth generalizing w ids with
  | zero => exact .pure _
  | succ depth ih =>
    cases ids with
    | nil => exact .pure _
    | cons id ids =>
      exact .bind (declareLevel_changes _) fun _ _ _ => .bind (ih _) fun _ _ _ => .pure _

/-- Resolution is a chain of changes, wherever it ends. -/
theorem resolve_changes (cfg : Setting) (t : Tree) (w : Workspace) :
    Proceeds cfg w (endState (resolve cfg t) w) :=
  MadeOf.bind (declareLevels_changes _ _) fun _ _ _ => consults_change (classifyAll_consults _)

end SexprAsm.Resolution
