import SexprAsm.Proofs.Resolution
import SexprAsm.Proofs.Workspace.Renumbering

/-!
# Finding the meaning of nodes under other numbers

A tree that stands in another one under other numbers (`Tree.Embeds`) is read there just as it is
by itself, and so both passes of resolution over it run in lockstep: they visit the nodes that
correspond, find the same of them, and fail alike, at nodes that correspond.
-/

namespace SexprAsm

/-- The same error, told of the node under its other number. -/
def CompileError.renumber (f : NodeId → NodeId) (e : CompileError) : CompileError :=
  { e with node := e.node.map f }

/-! ## Reading nodes -/

namespace Tree.Embeds

variable {t t' : Tree} {f : NodeId → NodeId}

theorem isLeaf (h : t.Embeds t' f) (id : NodeId) :
    (t'.node (f id)).isLeaf = (t.node id).isLeaf := by
  have hchildren : (t'.node (f id)).children = (t.node id).children.map f := h.children id
  rw [Node.isLeaf, Node.isLeaf, hchildren, List.isEmpty_map]

theorem nameAt (h : t.Embeds t' f) (id : NodeId) (construct : String) :
    Compile.nameAt t' (f id) construct = Compile.nameAt t id construct := by
  rw [Compile.nameAt, Compile.nameAt, h.tag]

end Tree.Embeds

namespace Resolution

variable {cfg : Setting} {t t' : Tree} {f : NodeId → NodeId}

theorem headD_renumber {ids : List NodeId} (hne : ids ≠ []) :
    (ids.map f).headD 0 = f (ids.headD 0) := by
  cases ids with
  | nil => exact absurd rfl hne
  | cons => rfl

theorem isThis_renumber (htag : ∀ id, t'.tag (f id) = t.tag id) {id : NodeId}
    (hchildren : t'.children (f id) = (t.children id).map f) : isThis t' (f id) = isThis t id := by
  rw [isThis, isThis, hchildren, htag]
  rcases t.children id with _ | ⟨only, _ | ⟨other, rest⟩⟩
  · rfl
  · simp only [List.map_cons, List.map_nil, htag]
  · rfl

theorem modifiers_renumber (htag : ∀ id, t'.tag (f id) = t.tag id) (ids : List NodeId)
    (found : Option TypeId × Attributes) :
    modifiers cfg t' (ids.map f) found = modifiers cfg t ids found := by
  induction ids generalizing found with
  | nil => rfl
  | cons id ids ih => simp only [List.map_cons, modifiers, htag, ih]

theorem defaultValue_renumber (h : t.Embeds t' f) (name : String) (attributes : Attributes)
    (id : NodeId) : defaultValue t' name attributes (f id) = defaultValue t name attributes id := by
  simp only [defaultValue, h.isLeaf, h.tag, isThis_renumber h.tag (h.children id)]

theorem declareVariable_renumber (h : t.Embeds t' f) {id : NodeId} (hne : t.children id ≠ []) :
    declareVariable cfg t' (f id) = declareVariable cfg t id := by
  simp only [declareVariable, h.children, headD_renumber hne, h.nameAt, ← List.map_drop,
    ← List.map_dropLast, modifiers_renumber h.tag, List.getLast?_map]
  cases ((t.children id).drop 1).getLast? with
  | none => rfl
  | some last => simp only [Option.map_some, defaultValue_renumber h]

theorem declareNode_renumber (h : t.Embeds t' f) (id : NodeId) :
    declareNode cfg t' (f id) = declareNode cfg t id := by
  have htag : (t'.node (f id)).tag = (t.node id).tag := h.tag id
  have hchildren : (t'.node (f id)).children = (t.node id).children.map f := h.children id
  simp only [declareNode, htag, h.isLeaf, hchildren]
  split
  · rfl
  split
  next hdeclare =>
    have hne : t.children id ≠ [] := by simpa [Node.isLeaf, Tree.children] using hdeclare.2
    rw [declareVariable_renumber h hne]
  split
  · rfl
  rcases (t.node id).children with _ | ⟨label, _ | ⟨body, _ | ⟨other, rest⟩⟩⟩
  · rfl
  · rfl
  · simp only [List.map_cons, List.map_nil, h.nameAt]
  · rfl

/-! ## Declarations -/

theorem nameAt_blind (id : NodeId) (construct : String) :
    Blind (Compile.nameAt t id construct) := by
  unfold Compile.nameAt
  split
  · split
    · exact .throw _
    · exact .pure _
  · exact .throw _

theorem ofExcept_blind {α : Type} (outcome : Except CompileFault α) :
    Blind (declareVariable.ofExcept outcome) := by
  cases outcome with
  | ok a => exact .pure a
  | error e => exact .throw e

theorem declareVariable_blind (id : NodeId) : Blind (declareVariable cfg t id) := by
  refine .bind (nameAt_blind _ _) fun name => .bind (ofExcept_blind _) fun found => ?_
  dsimp only
  split
  · exact .bind (ofExcept_blind _) fun _ => .emit _
  · exact .emit _

theorem declareNode_blind (id : NodeId) : Blind (declareNode cfg t id) := by
  unfold declareNode
  dsimp only
  split
  · exact .pure _
  split
  · exact .bind (declareVariable_blind id) fun _ => .pure _
  split
  · exact .pure _
  split
  · split
    · exact .bind (nameAt_blind _ _) fun label =>
        .bind (Build.declareEntryPoint_blind label).build fun _ => .pure _
    · exact .pure _
  · exact .pure _

/-- A step at a node, and one at the node that stands for it. -/
theorem at_renumber {α β : Type} {result : α → β} {act : Compile α} {act' : Compile β}
    (h : Lockstep (Workspace.Renumbered f) id result act act') (node : NodeId) :
    Lockstep (Workspace.Renumbered f) (CompileError.renumber f) result (Compilation.at node act)
      (Compilation.at (f node) act') :=
  h.adaptExcept fun _ => rfl

theorem declareLevel_renumber (h : t.Embeds t' f) (ids : List NodeId) :
    Lockstep (Workspace.Renumbered f) (CompileError.renumber f) (List.map f)
      (declareLevel cfg t ids) (declareLevel cfg t' (ids.map f)) := by
  induction ids with
  | nil => exact .pure rfl
  | cons node ids ih =>
    have hnode : Lockstep (Workspace.Renumbered f) id id (declareNode cfg t node)
        (declareNode cfg t' (f node)) := by
      rw [declareNode_renumber h]
      exact declareNode_blind node f
    refine .bind (at_renumber hnode node) fun visit => .bind ih fun next => .pure ?_
    cases visit with
    | false => rfl
    | true => simp [h.children]

theorem declareLevels_renumber (h : t.Embeds t' f) (depth : Nat) (ids : List NodeId) :
    Lockstep (Workspace.Renumbered f) (CompileError.renumber f) (List.map f)
      (declareLevels cfg t depth ids) (declareLevels cfg t' depth (ids.map f)) := by
  induction depth generalizing ids with
  | zero => exact .pure rfl
  | succ depth ih =>
    cases ids with
    | nil => exact .pure rfl
    | cons id ids =>
      refine .bind (declareLevel_renumber h (id :: ids)) fun next => .bind (ih next) fun order => ?_
      exact .pure (by simp)

/-! ## Findings -/

variable {w w' : Workspace}

/-- The same is recorded of a node under either number. -/
theorem record_renumber (hinjective : Function.Injective f) (hw : w.Renumbered f w') (node : NodeId)
    (found : Finding) : (w.record node found).Renumbered f (w'.record (f node) found) := by
  obtain ⟨hrest, hfinding, hlt⟩ := hw
  refine ⟨?_, fun other => ?_, fun other => ?_⟩
  · rw [Workspace.record, hrest, Workspace.record]
  · simp only [finding_record, hinjective.eq_iff, hlt, hfinding]
  · simpa only [Workspace.record, Array.size_setIfInBounds] using hlt other

/-- Something is recorded of a node that stands for no other one. -/
theorem record_beside (hw : w.Renumbered f w') {node : NodeId} (hnode : ∀ id, f id ≠ node)
    (found : Finding) : w.Renumbered f (w'.record node found) := by
  obtain ⟨hrest, hfinding, hlt⟩ := hw
  refine ⟨?_, fun other => ?_, fun other => ?_⟩
  · rw [Workspace.record, hrest]
  · rw [finding_record, if_neg fun hid => hnode other hid.1, hfinding]
  · simpa only [Workspace.record, Array.size_setIfInBounds] using hlt other

theorem allTypes_renumber (hw : w.Renumbered f w') (ids : List NodeId) :
    allTypes w' (ids.map f) = allTypes w ids := by
  have hcomp : w'.nodeType? ∘ f = w.nodeType? := funext hw.nodeType?
  rw [allTypes, allTypes, List.mapM_map, hcomp]

theorem callFinding_renumber (hw : w.Renumbered f w') (tag : String) (children : List NodeId) :
    callFinding cfg w' tag (children.map f) = callFinding cfg w tag children := by
  simp only [callFinding, allTypes_renumber hw, List.length_map]

theorem bareCall?_renumber (h : t.Embeds t' f) (hw : w.Renumbered f w') (node : NodeId) :
    bareCall? cfg t' w' (f node) = bareCall? cfg t w node := by
  have hentries : w'.entryPoints = w.entryPoints := by rw [hw.rest]
  simp only [bareCall?, h.tag, hentries]

theorem sequenceFinding_renumber (h : t.Embeds t' f) (children : List NodeId) :
    Lockstep (Workspace.Renumbered f) id id (sequenceFinding cfg t children)
      (sequenceFinding cfg t' (children.map f)) := by
  have hlast : Lockstep (Workspace.Renumbered f) id id
      (do return ⟨some .sequence, children.getLast?.bind (← get).nodeType?⟩ : Compile Finding)
      (do return ⟨some .sequence, (children.map f).getLast?.bind (← get).nodeType?⟩) := by
    refine .get_bind fun w w' hw => .pure ?_
    have hcomp : w'.nodeType? ∘ f = w.nodeType? := funext hw.nodeType?
    rw [List.getLast?_map, Option.bind_map, hcomp]
    rfl
  unfold sequenceFinding
  rcases children with _ | ⟨only, _ | ⟨other, rest⟩⟩
  · exact hlast
  · refine .get_bind fun w w' hw => ?_
    dsimp only
    rw [bareCall?_renumber h hw]
    split
    next found _ =>
      exact .bind (.modify fun w w' hw => record_renumber h.injective hw only found) fun _ => hlast
    next => exact hlast
  · exact hlast

/-- A step that depends on a name in the tag of a node. -/
theorem nameAt_bind_renumber {α β : Type} {result : α → β} (h : t.Embeds t' f) (node : NodeId)
    (construct : String) {next : String → Compile α} {next' : String → Compile β}
    (hnext : ∀ name, Lockstep (Workspace.Renumbered f) id result (next name) (next' name)) :
    Lockstep (Workspace.Renumbered f) id result (Compile.nameAt t node construct >>= next)
      (Compile.nameAt t' (f node) construct >>= next') := by
  rw [h.nameAt]
  exact .bind (nameAt_blind node construct f) hnext

theorem taggedFinding_renumber (h : t.Embeds t' f) (tag : String) {children : List NodeId}
    (hne : children ≠ []) :
    Lockstep (Workspace.Renumbered f) id id (taggedFinding cfg t tag children)
      (taggedFinding cfg t' tag (children.map f)) := by
  refine .get_bind fun w w' hw => ?_
  dsimp only
  rw [headD_renumber hne, List.length_map, branches_map, allTypes_renumber hw,
    callFinding_renumber hw]
  have hslots : w'.assembly = w.assembly := by rw [hw.rest]
  -- Tags and numbers of children are the same in both trees, so both take the same branch.
  split
  · exact nameAt_bind_renumber h _ _ fun name => .pure (by rw [hslots]; rfl)
  split
  · exact .pure rfl
  split
  · exact .pure rfl
  rcases children with _ | ⟨first, _ | ⟨second, _ | ⟨third, rest⟩⟩⟩
  · exact absurd rfl hne
  · simp only [List.map_cons, List.map_nil]
    split
    · refine nameAt_bind_renumber h _ _ fun name => .bind (Blind.emit _ f) fun found => ?_
      cases found with
      | some type => exact .pure rfl
      | none => exact Blind.throw _ f
    split
    · refine nameAt_bind_renumber h _ _ fun name => ?_
      split
      · exact .pure rfl
      · exact Blind.throw _ f
    · exact .pure rfl
  · simp only [List.map_cons, List.map_nil, hw.nodeType?]
    split
    · exact nameAt_bind_renumber h _ _ fun name => .bind (Blind.emit _ f) fun _ => .pure rfl
    split
    · exact .pure rfl
    split
    · exact .pure rfl
    · exact .pure rfl
  · exact .pure rfl

theorem classify_renumber (h : t.Embeds t' f) (node : NodeId) :
    Lockstep (Workspace.Renumbered f) id id (classify cfg t node) (classify cfg t' (f node)) := by
  have htag : (t'.node (f node)).tag = (t.node node).tag := h.tag node
  have hchildren : (t'.node (f node)).children = (t.node node).children.map f := h.children node
  unfold classify
  dsimp only
  rw [htag, h.isLeaf, hchildren]
  split
  next => exact .pure rfl
  next hinner =>
    split
    next => exact sequenceFinding_renumber h _
    next tag _ =>
      exact taggedFinding_renumber h tag fun hnil => hinner (by simp [Node.isLeaf, hnil])
    next => exact .pure rfl

theorem classifyAll_renumber (h : t.Embeds t' f) (nodes : List NodeId) :
    Lockstep (Workspace.Renumbered f) (CompileError.renumber f) id (classifyAll cfg t nodes)
      (classifyAll cfg t' (nodes.map f)) := by
  induction nodes with
  | nil => exact .pure rfl
  | cons node nodes ih =>
    refine .bind (at_renumber (classify_renumber h node) node) fun found => ?_
    exact .bind (.modify fun w w' hw => record_renumber h.injective hw node found) fun _ => ih

end Resolution

end SexprAsm
