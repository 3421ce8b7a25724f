import SexprAsm.Proofs.Generation.Recursion
import SexprAsm.Proofs.Generation.Renumbering
import SexprAsm.Proofs.Program
import SexprAsm.Proofs.Resolution.Pointers

/-!
# A program in parentheses

A list without a tag and with a single item has the value of that item, so a tree below a root of
its own (`Tree.Wraps`) should compile to the same program. It does so up to one thing: a bare name
that is the only item of such a list is a call, and whether the item has children of its own does
not matter for that. The list therefore compiles to what its item compiles to as an only item
(`Resolution.asOnlyItem`), and that is the item itself where its tag names no operation without
parameters and no event.
-/

namespace SexprAsm

/-- A tree stands whole below the root of another one, which has no tag and no other child. -/
structure Tree.Wraps (w t : Tree) (f : NodeId → NodeId) : Prop extends t.Embeds w f where
  root_tag : w.tag Tree.root = .null
  root_children : w.children Tree.root = [f Tree.root]
  fresh : ∀ id, f id ≠ Tree.root
  size : w.size = t.size + 1

/-- The tree below a root of its own. -/
def Tree.wrapped (t : Tree) : Tree :=
  ⟨#[{ tag := .null, children := [Tree.root + 1] }] ++ t.nodes.mapIdx fun id node =>
    { node with
      children := node.children.map (· + 1)
      parent := if id = Tree.root then some Tree.root else node.parent.map (· + 1) }⟩

theorem Tree.wrapped_wraps (t : Tree) : t.wrapped.Wraps t (· + 1) := by
  have hnode (id : NodeId) : t.wrapped.nodes[id + 1]? = t.nodes[id]?.map fun node =>
      { node with
        children := node.children.map (· + 1)
        parent := if id = Tree.root then some Tree.root else node.parent.map (· + 1) } := by
    simp [Tree.wrapped, Array.getElem?_append]
  have hroot : t.wrapped.node Tree.root = { tag := .null, children := [Tree.root + 1] } := by
    simp [Tree.node_eq, Tree.wrapped, Tree.root]
  have hsize : t.wrapped.size = t.size + 1 := by
    simp [Tree.wrapped, Tree.size, Nat.add_comm]
  refine
    { tag := fun id => ?_, children := fun id => ?_, injective := add_left_injective 1,
      lt_iff := fun id => ?_, root_tag := congrArg Node.tag hroot,
      root_children := congrArg Node.children hroot, fresh := Nat.succ_ne_zero, size := hsize }
  · rw [Tree.tag, Tree.tag, Tree.node_eq, Tree.node_eq, hnode]
    cases t.nodes[id]? <;> rfl
  · rw [Tree.children, Tree.children, Tree.node_eq, Tree.node_eq, hnode]
    cases t.nodes[id]? <;> rfl
  · rw [hsize]
    exact Nat.succ_lt_succ_iff

namespace Resolution

variable {cfg : Setting} {t w : Tree} {f : NodeId → NodeId}

/-- What is recorded of a node once it has been taken for the only item of a list without a tag. -/
def asOnlyItem (cfg : Setting) (t : Tree) (node : NodeId) (v : Workspace) : Workspace :=
  match bareCall? cfg t v node with
  | some found => v.record node found
  | none => v

theorem asOnlyItem_renumber (h : t.Embeds w f) {v v' : Workspace} (hv : v.Renumbered f v')
    (node : NodeId) :
    (asOnlyItem cfg t node v).Renumbered f (asOnlyItem cfg w (f node) v') := by
  rw [asOnlyItem, asOnlyItem, bareCall?_renumber h hv]
  split
  · exact record_renumber h.injective hv node _
  · exact hv

/-! ## Resolution -/

theorem declareNode_root (h : w.Wraps t f) : declareNode cfg w Tree.root = pure true := by
  have htag : (w.node Tree.root).tag = .null := h.root_tag
  rw [declareNode, htag]
  rfl

/-- The root is a level of its own, above those of the tree. -/
theorem declareLevels_root (h : w.Wraps t f) (depth : Nat) :
    declareLevels cfg w (depth + 1) [Tree.root] = (do
      let order ← declareLevels cfg w depth [f Tree.root]
      return Tree.root :: order) := by
  have hlevel : declareLevel cfg w [Tree.root] = pure [f Tree.root] := by
    have hnode : Compilation.at Tree.root (declareNode cfg w Tree.root) = pure true := by
      rw [declareNode_root h]
      rfl
    rw [declareLevel, hnode, h.root_children]
    rfl
  rw [declareLevels, hlevel, pure_bind]
  rfl

theorem classifyAll_append (ids ids' : List NodeId) :
    classifyAll cfg w (ids ++ ids') = (do classifyAll cfg w ids; classifyAll cfg w ids') := by
  induction ids with
  | nil => rfl
  | cons id ids ih => simp only [List.cons_append, classifyAll, ih, bind_assoc]

/-- The root has the value of the tree below it, which has been taken for an only item by then. -/
def recordRoot (cfg : Setting) (w : Tree) (item : NodeId) (v : Workspace) : Workspace :=
  (asOnlyItem cfg w item v).record Tree.root
    ⟨some .sequence, (asOnlyItem cfg w item v).nodeType? item⟩

theorem sequenceFinding_only (item : NodeId) : sequenceFinding cfg w [item] = (do
    modify (asOnlyItem cfg w item)
    return ⟨some .sequence, (← get).nodeType? item⟩) := by
  funext v
  show _ = (pure ⟨some .sequence, (asOnlyItem cfg w item v).nodeType? item⟩ : Compile Finding)
    (asOnlyItem cfg w item v)
  have hget : Yields (get : Compile Workspace) v v v := Yields.get_iff.mpr ⟨rfl, rfl⟩
  rw [sequenceFinding, bind_of_yields hget, asOnlyItem]
  cases bareCall? cfg w v item <;> rfl

theorem classifyAll_root (h : w.Wraps t f) :
    classifyAll cfg w [Tree.root] = modify (recordRoot cfg w (f Tree.root)) := by
  have htag : (w.node Tree.root).tag = .null := h.root_tag
  have hchildren : (w.node Tree.root).children = [f Tree.root] := h.root_children
  have hroot : classify cfg w Tree.root = sequenceFinding cfg w [f Tree.root] := by
    rw [classify, htag, hchildren]
    simp [Node.isLeaf, hchildren]
  rw [classifyAll, hroot, sequenceFinding_only]
  rfl

/-- The tree below the root is resolved as it is by itself, and then taken for an only item. -/
theorem resolve_root (h : w.Wraps t f) : resolve cfg w = (do
    let order ← declareLevels cfg w t.size [f Tree.root]
    classifyAll cfg w order.reverse
    modify (recordRoot cfg w (f Tree.root))) := by
  rw [resolve, h.size, declareLevels_root h]
  simp only [bind_assoc, pure_bind, List.reverse_cons, classifyAll_append, classifyAll_root h]

theorem recordRoot_renumber (h : w.Wraps t f) {v v' : Workspace} (hv : v.Renumbered f v') :
    (asOnlyItem cfg t Tree.root v).Renumbered f (recordRoot cfg w (f Tree.root) v') :=
  record_beside (asOnlyItem_renumber h.toEmbeds hv Tree.root) h.fresh _

theorem resolve_wraps (cfg : Setting) (h : w.Wraps t f) :
    Lockstep (Workspace.Renumbered f) (CompileError.renumber f) id
      (do resolve cfg t; modify (asOnlyItem cfg t Tree.root)) (resolve cfg w) := by
  rw [resolve_root h, resolve, bind_assoc]
  refine .bind (declareLevels_renumber h.toEmbeds t.size [Tree.root]) fun order => ?_
  rw [← List.map_reverse]
  refine .bind (classifyAll_renumber h.toEmbeds order.reverse) fun _ => ?_
  exact .modify fun v v' hv => recordRoot_renumber h hv

/-- The root is known as a sequence. -/
theorem construct?_root (h : w.Wraps t f) {v : Workspace}
    (hv : Program.resolved cfg w = .ok v) : v.construct? Tree.root = some .sequence := by
  obtain ⟨v₁, -, hclassify, hfindings, -⟩ := Program.resolved_visits hv
  have hsize : v.findings.size = t.size + 1 := by
    rw [size_of_consults ((classifyAll_consults _).of_yields hclassify), hfindings,
      Array.size_replicate, h.size]
  have hresolve := Program.resolved_eq_ok_iff.mp hv
  simp only [resolve_root h, Yields.bind_iff, Yields.modify_iff] at hresolve
  obtain ⟨order, _, -, _, v₂, -, rfl⟩ := hresolve
  have hlt : Tree.root < (asOnlyItem cfg w (f Tree.root) v₂).findings.size := by
    rw [recordRoot, Workspace.record, Array.size_setIfInBounds] at hsize
    rw [hsize]
    exact Nat.succ_pos _
  rw [recordRoot, Workspace.construct?, finding_record, if_pos ⟨rfl, hlt⟩]

end Resolution

namespace Generation

variable {cfg : Setting} {t w : Tree} {f : NodeId → NodeId} {v v' : Workspace}

/-- The unit of the root, once it has named its only child. -/
def rootUnit : WorkUnit := { node := Tree.root, target := none, step := 1, task := .sequence }

theorem run_rootUnit (h : w.Wraps t f) (fuel : Nat) : run cfg w fuel [rootUnit] = pure () := by
  cases fuel with
  | zero => rfl
  | succ fuel =>
    have hstep : step cfg w rootUnit = pure (.done, { rootUnit with step := 2 }) := by
      show stepSequence w 1 { rootUnit with step := 2 } = _
      have hnone : (w.children rootUnit.node)[1]? = none := by
        rw [rootUnit, h.root_children]
        rfl
      rw [stepSequence, hnone]
    rw [run, hstep]
    cases fuel <;> rfl

/-- Two turns of the loop are for the root: one that goes to its child, and one that ends it. -/
theorem generate_root (h : w.Wraps t f) (hv : v.construct? Tree.root = some .sequence) :
    generate cfg w v = (do
      let first ← Compilation.at (f Tree.root) (start w (f Tree.root) none)
      run cfg w (stepBound t + 1) [first, rootUnit] : Compilation Unit) v := by
  have hstart : Yields (Compilation.at Tree.root (start w Tree.root none)) v
      { rootUnit with step := 0 } v := by
    refine Compilation.at_iff.mpr ?_
    simp only [start, Yields.bind_iff, Yields.get_iff]
    exact ⟨v, v, ⟨rfl, rfl⟩, by rw [hv]; rfl⟩
  have hstep : step cfg w { rootUnit with step := 0 } =
      pure (.descend (f Tree.root) none, rootUnit) := by
    show stepSequence w 0 rootUnit = _
    rw [stepSequence, rootUnit, h.root_children]
    rfl
  have hbound : stepBound w = stepBound t + 1 + 1 := by
    rw [stepBound, stepBound, h.size]
    omega
  rw [generate, bind_of_yields hstart, hbound, run, hstep]
  rfl

/-- The tree below the root is generated as it is by itself. -/
theorem generate_wraps (h : w.Wraps t f) (ht : t.Linked) (hroot : Tree.root < t.size)
    (hv : v'.construct? Tree.root = some .sequence) (hrenumbered : v.Renumbered f v') :
    (∃ v₁ v₁', generate cfg t v = .ok () v₁ ∧ generate cfg w v' = .ok () v₁' ∧
        v₁.Renumbered f v₁') ∨
      ∃ e v₁ v₁', generate cfg t v = .error e v₁ ∧
        generate cfg w v' = .error (e.renumber f) v₁' := by
  have hlockstep : Lockstep (Workspace.Renumbered f) (CompileError.renumber f) id
      (do
        let first ← Compilation.at Tree.root (start t Tree.root none)
        run cfg t (stepBound t + 1) [first])
      (do
        let first ← Compilation.at (f Tree.root) (start w (f Tree.root) none)
        run cfg w (stepBound t + 1) [first, rootUnit]) :=
    .bind (Resolution.at_renumber (start_renumber h.toEmbeds Tree.root none) Tree.root) fun first =>
      run_renumber h.toEmbeds (run_rootUnit h) (stepBound t + 1) [first]
  -- The turns that the root needs more are none too many for the tree.
  have hturns : generate cfg t v = (do
      let first ← Compilation.at Tree.root (start t Tree.root none)
      run cfg t (stepBound t + 1) [first] : Compilation Unit) v := by
    rw [generate, run_start_eq_compileNode cfg ht hroot (Nat.le_refl _),
      run_start_eq_compileNode cfg ht hroot (Nat.le_succ _)]
  rcases hlockstep v v' hrenumbered with ⟨_, v₁, v₁', ht, hw, hv₁⟩ | ⟨e, v₁, v₁', ht, hw⟩
  · exact Or.inl ⟨v₁, v₁', hturns.trans ht, (generate_root h hv).trans hw, hv₁⟩
  · exact Or.inr ⟨e, v₁, v₁', hturns.trans ht, (generate_root h hv).trans hw⟩

end Generation

namespace Program

variable {cfg : Setting} {t w : Tree} {f : NodeId → NodeId}

/-- Compiles a tree as the only item of a list without a tag. -/
def ofOnlyItem (cfg : Setting) (t : Tree) : Except CompileError Program := do
  let before ← resolved cfg t
  match (Generation.generate cfg t).run (Resolution.asOnlyItem cfg t Tree.root before) with
  | .ok _ after => ofAssembly cfg.catalog.types after.assembly
  | .error e _ => .error e

/-- An error of the whole program tells no node. -/
theorem ofAssembly_renumber (types : TypeTable) (a : Assembly) (f : NodeId → NodeId) :
    (ofAssembly types a).mapError (CompileError.renumber f) = ofAssembly types a := by
  unfold ofAssembly
  split <;> rfl

theorem resolved_wraps (cfg : Setting) (h : w.Wraps t f) :
    (∃ v v', resolved cfg t = .ok v ∧ resolved cfg w = .ok v' ∧
        (Resolution.asOnlyItem cfg t Tree.root v).Renumbered f v') ∨
      ∃ e, resolved cfg t = .error e ∧ resolved cfg w = .error (e.renumber f) := by
  rcases Resolution.resolve_wraps cfg h _ _ (.forTree h.toEmbeds) with
    ⟨_, v, v', ht, hw, hv⟩ | ⟨e, v, v', ht, hw⟩
  · simp only [Yields.bind_iff, Yields.modify_iff] at ht
    obtain ⟨_, v₀, ht, rfl⟩ := ht
    exact Or.inl ⟨v₀, v', resolved_eq_ok_iff.mpr ht, resolved_eq_ok_iff.mpr hw, hv⟩
  · refine Or.inr ⟨e, resolved_eq_error_iff.mpr ?_, resolved_eq_error_iff.mpr ⟨v', hw⟩⟩
    cases hresolve : Resolution.resolve cfg t (.forTree t) with
    | ok _ v₀ => cases (bind_of_yields hresolve).symm.trans ht
    | error e' v₀ =>
      cases (bind_of_error hresolve).symm.trans ht
      exact ⟨v, rfl⟩

/-- In parentheses a tree compiles as it does as an only item. -/
theorem ofTree_eq_ofOnlyItem (cfg : Setting) (h : w.Wraps t f) (ht : t.Linked)
    (hroot : Tree.root < t.size) :
    ofTree cfg w = (ofOnlyItem cfg t).mapError (CompileError.renumber f) := by
  rcases resolved_wraps cfg h with ⟨v, v', ht', hw, hv⟩ | ⟨e, ht', hw⟩
  · have hsequence := Resolution.construct?_root h hw
    simp only [ofTree, generated, ofOnlyItem, ht', hw, bind, Except.bind, EStateM.run]
    rcases Generation.generate_wraps h ht hroot hsequence hv with
      ⟨v₁, v₁', ht₁, hw₁, hv₁⟩ | ⟨e, v₁, v₁', ht₁, hw₁⟩
    · have hsame : v₁'.assembly = v₁.assembly := by rw [hv₁.rest]
      rw [ht₁, hw₁]
      simp only [hsame, ofAssembly_renumber]
    · rw [ht₁, hw₁]
      rfl
  · simp only [ofTree, generated, ofOnlyItem, ht', hw, bind, Except.bind]
    rfl

/-- The root has the name of an operation without parameters, or of an event that has a block. -/
def NamesCall (cfg : Setting) (t : Tree) : Prop :=
  ∃ name ∈ (t.tag Tree.root).text?, (cfg.catalog.resolveOverload name []).isSome ∨
    ∃ block ∈ t.visits, t.eventLabel? block = some name

instance (cfg : Setting) (t : Tree) : Decidable (NamesCall cfg t) :=
  inferInstanceAs (Decidable (∃ name ∈ (t.tag Tree.root).text?, _ ∨ ∃ block ∈ t.visits, _))

theorem ofOnlyItem_eq_ofTree (hcall : ¬ NamesCall cfg t) : ofOnlyItem cfg t = ofTree cfg t := by
  cases hresolved : resolved cfg t with
  | error e => simp only [ofOnlyItem, ofTree, generated, hresolved, bind, Except.bind]
  | ok v =>
    have hbare : Resolution.bareCall? cfg t v Tree.root = none := by
      cases htext : (t.tag Tree.root).text? with
      | none => simp only [Resolution.bareCall?, htext, bind, Option.bind]
      | some name =>
        have hoverload : cfg.catalog.resolveOverload name [] = none := by
          by_contra hne
          exact hcall ⟨name, htext, Or.inl (Option.isSome_iff_ne_none.mpr hne)⟩
        have hentry : v.entryPoints.get? name = none := by
          by_contra hne
          obtain ⟨entry, hentry⟩ := Option.ne_none_iff_exists'.mp hne
          have hopened := ((resolved_pointed hresolved).pointers name entry hentry).opened
          exact hcall ⟨name, htext, Or.inr hopened⟩
        simp only [Resolution.bareCall?, htext, hoverload, hentry, bind, Option.bind]
    have hsame : Resolution.asOnlyItem cfg t Tree.root v = v := by
      rw [Resolution.asOnlyItem, hbare]
    simp only [ofOnlyItem, ofTree, generated, hresolved, bind, Except.bind, hsame]
    cases (Generation.generate cfg t).run v <;> rfl

/-- In parentheses a tree compiles as it does as an only item: to the same program, or with the same
error at the node that corresponds. That is how it compiles by itself, unless its root has the name
of an operation without parameters, or of an event that has a block. -/
theorem ofTree_wraps (cfg : Setting) (h : w.Wraps t f) (ht : t.Linked)
    (hroot : Tree.root < t.size) :
    ofTree cfg w = (ofOnlyItem cfg t).mapError (CompileError.renumber f) ∧
      (¬ NamesCall cfg t → ofTree cfg w = (ofTree cfg t).mapError (CompileError.renumber f)) := by
  have hwrapped := ofTree_eq_ofOnlyItem cfg h ht hroot
  refine ⟨hwrapped, fun hcall => ?_⟩
  rw [hwrapped, ofOnlyItem_eq_ofTree hcall]

/-- A block of an event compiles alike in parentheses and without, but not if its tag is its label:
then it is taken for a call of the event, and there is no block to land in. -/
theorem ofTree_wraps_block : ∃ t t' : Tree,
    Tree.read "when(_a,1)" = .ok t ∧ ¬ NamesCall ⟨.empty, true⟩ t ∧
      (∃ p, ofTree ⟨.empty, true⟩ t = .ok p ∧ ofTree ⟨.empty, true⟩ t.wrapped = .ok p) ∧
      Tree.read "when(when,1)" = .ok t' ∧ NamesCall ⟨.empty, true⟩ t' ∧
      (ofTree ⟨.empty, true⟩ t').isOk = true ∧ (ofTree ⟨.empty, true⟩ t'.wrapped).isOk = false := by
  have hplain : (Tree.read "when(_a,1)").toOption.any fun t =>
      !decide (NamesCall ⟨.empty, true⟩ t) && (ofTree ⟨.empty, true⟩ t).isOk := by
    decide +kernel
  have hcalled : (Tree.read "when(when,1)").toOption.any fun t =>
      decide (NamesCall ⟨.empty, true⟩ t) && (ofTree ⟨.empty, true⟩ t).isOk &&
        !(ofOnlyItem ⟨.empty, true⟩ t).isOk := by
    decide +kernel
  obtain ⟨t, ht, hlinked, hroot, hholds⟩ := Tree.read_of_any hplain
  obtain ⟨t', ht', hlinked', hroot', hholds'⟩ := Tree.read_of_any hcalled
  simp only [Bool.and_eq_true, Bool.not_eq_true', decide_eq_true_iff, decide_eq_false_iff_not]
    at hholds hholds'
  refine ⟨t, t', ht, hholds.1, ?_, ht', hholds'.1.1, hholds'.1.2, ?_⟩
  · have hsame := (ofTree_wraps ⟨.empty, true⟩ t.wrapped_wraps hlinked hroot).2 hholds.1
    cases hp : ofTree ⟨.empty, true⟩ t with
    | error e =>
      rw [hp] at hholds
      cases hholds.2
    | ok p => exact ⟨p, rfl, by rw [hsame, hp]; rfl⟩
  · rw [(ofTree_wraps ⟨.empty, true⟩ t'.wrapped_wraps hlinked' hroot').1]
    cases honly : ofOnlyItem ⟨.empty, true⟩ t' with
    | error e => rfl
    | ok p =>
      rw [honly] at hholds'
      cases hholds'.2

end Program

end SexprAsm
