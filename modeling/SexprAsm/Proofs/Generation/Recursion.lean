import Mathlib.Algebra.BigOperators.Group.Finset.Basic
import Mathlib.Algebra.Order.BigOperators.Group.Finset
import SexprAsm.Proofs.Generation.Run
import SexprAsm.Proofs.MadeOf
import SexprAsm.Proofs.Program

/-!
# The work stack is plain recursion

`compileNode` compiles a node by recursion, with no stack and no bound on its turns: it steps the
unit of the node, and where a step names a child it compiles the child before it steps on. The
recursion ends because every step leaves less to do (`Generation.left`).

The loop over the stack of units gives the same outcome, state or error, for every tree and from
every workspace (`generate_eq_compileNode`), and more turns than its bound change nothing. For the
bound to cover trees with nodes that are not below the root, the nodes below a node are counted
(`Linked.weight_le_size`).
-/

namespace SexprAsm

/-! ## The nodes below a node

Each node that has a parent is a child of one node only, so no subtree has more nodes than the
arena. This bounds the number of turns that the loop needs. -/

namespace Tree

variable {t : Tree}

theorem one_le_weight (t : Tree) (id : NodeId) : 1 ≤ t.weight id := by
  unfold weight
  cases t.sexpr id
  rw [Sexpr.size]
  omega

/-- Summing over the children of every node visits every node that has a parent once. -/
theorem Linked.sum_children (h : t.Linked) (f : NodeId → Nat) :
    ∑ id ∈ Finset.range t.size, ((t.children id).map f).sum =
      ∑ c ∈ Finset.range t.size, if (t.parent? c).isSome then f c else 0 := by
  have hchildren : ∀ id ∈ Finset.range t.size, ((t.children id).map f).sum =
      ∑ c ∈ Finset.range t.size, if t.parent? c = some id then f c else 0 := by
    intro id _
    rw [← Finset.sum_filter, ← List.sum_toFinset f (h.nodup id)]
    congr 1
    ext c
    rw [List.mem_toFinset, Finset.mem_filter, Finset.mem_range, h.mem_iff]
    exact ⟨fun hparent => ⟨lt_size_of_parent? hparent, hparent⟩, And.right⟩
  rw [Finset.sum_congr rfl hchildren, Finset.sum_comm]
  refine Finset.sum_congr rfl fun c _ => ?_
  cases hparent : t.parent? c with
  | none => simp
  | some p =>
    rw [Finset.sum_eq_single p]
    · simp
    · intro other _ hne
      exact if_neg fun heq => hne (Option.some.inj heq).symm
    · intro hout
      exact absurd (Finset.mem_range.mpr (h.parent_lt hparent)) hout

/-- The subtrees of the nodes without a parent share no node. -/
theorem Linked.sum_tops (h : t.Linked) :
    ∑ id ∈ Finset.range t.size, (if (t.parent? id).isSome then 0 else t.weight id) = t.size := by
  have hweights : ∑ id ∈ Finset.range t.size, t.weight id =
      ∑ id ∈ Finset.range t.size, ((t.children id).map t.weight).sum + t.size := by
    rw [Finset.sum_congr rfl fun id hid => h.weight_eq (Finset.mem_range.mp hid),
      Finset.sum_add_distrib]
    simp
  have hsplit : ∑ id ∈ Finset.range t.size, t.weight id =
      ∑ id ∈ Finset.range t.size, (if (t.parent? id).isSome then t.weight id else 0) +
        ∑ id ∈ Finset.range t.size, (if (t.parent? id).isSome then 0 else t.weight id) := by
    rw [← Finset.sum_add_distrib]
    refine Finset.sum_congr rfl fun id _ => ?_
    split <;> simp
  rw [h.sum_children] at hweights
  omega

theorem Linked.weight_le_of_parent? (h : t.Linked) {c p : NodeId} (hparent : t.parent? c = some p) :
    t.weight c ≤ t.weight p := by
  have hmem : t.weight c ∈ (t.children p).map t.weight :=
    List.mem_map.mpr ⟨c, (h.mem_iff p c).mpr hparent, rfl⟩
  have hle := List.single_le_sum (fun _ _ => Nat.zero_le _) _ hmem
  rw [h.weight_eq (h.parent_lt hparent)]
  omega

/-- No more nodes are below a node than there are. -/
theorem Linked.weight_le_size (h : t.Linked) {id : NodeId} (hid : id < t.size) :
    t.weight id ≤ t.size := by
  obtain ⟨rank, hrank, hbound⟩ := h.exists_rank_lt
  -- Going up the ranks ends at a node without a parent.
  induction hfuel : t.size - rank id using Nat.strong_induction_on generalizing id with
  | _ fuel ih =>
    cases hparent : t.parent? id with
    | some p =>
      have hlt := hrank id p hparent
      have hp := hbound p (h.parent_lt hparent)
      exact (h.weight_le_of_parent? hparent).trans
        (ih _ (by omega) (h.parent_lt hparent) rfl)
    | none =>
      have hle := Finset.single_le_sum
        (f := fun id => if (t.parent? id).isSome then 0 else t.weight id)
        (fun _ _ => Nat.zero_le _) (Finset.mem_range.mpr hid)
      rw [h.sum_tops] at hle
      simpa [hparent] using hle

end Tree

namespace Generation

variable {t : Tree}

/-! ## Plain recursion

A node is compiled by stepping its unit, and a child that a step goes to is compiled before the
next step. What is left of a unit decreases (`left`), which is why the recursion ends. -/

theorem left_start_lt (ht : t.Linked) {id : NodeId} {target : Option String} {u : WorkUnit}
    {w w' : Workspace} (h : Yields (start t id target) w u w') : left t u < 2 * t.weight id := by
  rcases Nat.lt_or_ge id t.size with hlt | hge
  · have := left_start ht hlt h
    omega
  · -- A number that names no node has no children.
    obtain ⟨-, construct, -, rfl⟩ := start_cases h
    have := t.one_le_weight id
    rw [left, Tree.children, Tree.node_of_le hge]
    simp only [List.drop_nil, List.map_nil, List.sum_nil]
    split <;> omega

mutual

/-- Compiles a node: starts a unit for it, and steps the unit to its end. -/
def compileNode (cfg : Setting) (ht : t.Linked) (id : NodeId) (target : Option String) :
    Compilation Unit := fun w =>
  match hstart : Compilation.at id (start t id target) w with
  | .error e w' => .error e w'
  | .ok u w' =>
    have := left_start_lt ht (Compilation.at_iff.mp hstart)
    resume cfg ht u w'
termination_by 2 * t.weight id

/-- Steps a unit to its end; a child that a step names is compiled before the next step. -/
def resume (cfg : Setting) (ht : t.Linked) (u : WorkUnit) : Compilation Unit := fun w =>
  match hstep : Compilation.at u.node (step cfg t u) w with
  | .error e w' => .error e w'
  | .ok (.done, _) w' => .ok () w'
  | .ok (.again, u') w' =>
    have := (left_step ht (Compilation.at_iff.mp hstep)).1 rfl
    resume cfg ht u' w'
  | .ok (.descend child target, u') w' =>
    have : 2 * t.weight child < left t u ∧ left t u' < left t u := by
      have hleft := (left_step ht (Compilation.at_iff.mp hstep)).2 child target rfl
      have hunit := one_le_left (t := t) u'
      have hchild := t.one_le_weight child
      omega
    match compileNode cfg ht child target w' with
    | .error e w'' => .error e w''
    | .ok () w'' => resume cfg ht u' w''
termination_by left t u

end

variable {cfg : Setting}

theorem compileNode_eq (ht : t.Linked) (id : NodeId) (target : Option String) :
    compileNode cfg ht id target = (do
      let u ← Compilation.at id (start t id target)
      resume cfg ht u) := by
  funext w
  rw [compileNode]
  split
  next e w' hstart => rw [bind_of_error hstart]
  next u w' hstart => rw [bind_of_yields hstart]

theorem resume_eq (ht : t.Linked) (u : WorkUnit) :
    resume cfg ht u = (do
      let (progress, u') ← Compilation.at u.node (step cfg t u)
      match progress with
      | .done => pure ()
      | .again => resume cfg ht u'
      | .descend child target => do
        compileNode cfg ht child target
        resume cfg ht u') := by
  funext w
  rw [resume]
  split
  next e w' hstep => rw [bind_of_error hstep]
  next u' w' hstep =>
    rw [bind_of_yields hstep]
    rfl
  next u' w' hstep => rw [bind_of_yields hstep]
  next child target u' w' hstep =>
    rw [bind_of_yields hstep]
    dsimp only
    cases hchild : compileNode cfg ht child target w' with
    | error e w'' => rw [bind_of_error hchild]
    | ok _ w'' => rw [bind_of_yields hchild]

/-- Steps the units of a stack to their ends, one after the other. -/
def resumeAll (cfg : Setting) (ht : t.Linked) : List WorkUnit → Compilation Unit
  | [] => pure ()
  | u :: rest => do
    resume cfg ht u
    resumeAll cfg ht rest

/-! ## The loop

The units of a stack are stepped to their ends one after the other (`resumeAll`), and this is
what the loop does if it has enough turns, by induction on their number. -/

/-- With enough turns, the loop does what recursion does. -/
theorem run_eq_resumeAll (ht : t.Linked) {fuel : Nat} {stack : List WorkUnit}
    (hfuel : leftAll t stack ≤ fuel) (w : Workspace) :
    run cfg t fuel stack w = resumeAll cfg ht stack w := by
  induction fuel generalizing stack w with
  | zero =>
    cases stack with
    | nil => rfl
    | cons u rest =>
      have := one_le_left (t := t) u
      simp only [leftAll, List.map_cons, List.sum_cons] at hfuel
      omega
  | succ fuel ih =>
    cases stack with
    | nil => rfl
    | cons u rest =>
      rw [run, resumeAll, resume_eq]
      cases hstep : Compilation.at u.node (step cfg t u) w with
      | error e w₁ => rw [bind_of_error hstep, bind_of_error (bind_of_error hstep)]
      | ok r w₁ =>
        obtain ⟨p, u'⟩ := r
        rw [bind_assoc, bind_of_yields hstep, bind_of_yields hstep]
        -- The turn leaves less to do, so what is left of the turns is enough for the rest.
        have hmove : ∀ {stack' : List WorkUnit} {w₂ : Workspace},
            Move cfg t (u :: rest) w stack' w₂ → leftAll t stack' ≤ fuel := by
          intro stack' w₂ hmove
          have := hmove.left_lt ht
          omega
        have hstep' := Compilation.at_iff.mp hstep
        cases p with
        | done => exact ih (hmove (.done hstep')) w₁
        | again => exact ih (hmove (.again hstep')) w₁
        | descend child target =>
          show (Compilation.at child (start t child target) >>= _) w₁ = _
          cases hstart : Compilation.at child (start t child target) w₁ with
          | error e w₂ =>
            rw [bind_of_error hstart, bind_assoc, compileNode_eq, bind_assoc, bind_of_error hstart]
          | ok next w₂ =>
            rw [bind_of_yields hstart, bind_assoc, compileNode_eq, bind_assoc,
              bind_of_yields hstart, ih (hmove (.descend hstep' (Compilation.at_iff.mp hstart))) w₂]
            rfl

/-- Generation that succeeds ends with an empty stack, whether or not all nodes are below the
root. -/
theorem generate_reaches {cfg : Setting} {w w' : Workspace} (ht : t.Linked)
    (hroot : Tree.root < t.size) (h : Yields (generate cfg t) w () w') :
    ∃ first, Yields (start t Tree.root none) w first w ∧ Reaches cfg t [first] w [] w' := by
  simp only [generate, Yields.bind_iff, Compilation.at_iff] at h
  obtain ⟨first, _, hstart, hrun⟩ := h
  obtain ⟨rfl, -⟩ := start_cases hstart
  have hleft := left_start ht hroot hstart
  have hweight := ht.weight_le_size hroot
  refine ⟨first, hstart, reaches_of_run ht hrun ?_⟩
  simp only [leftAll, List.map_cons, List.map_nil, List.sum_cons, List.sum_nil, stepBound]
  omega

/-- With at least the bound's number of turns, the loop compiles the root by plain recursion. -/
theorem run_start_eq_compileNode (cfg : Setting) (ht : t.Linked) (hroot : Tree.root < t.size)
    {turns : Nat} (hle : stepBound t ≤ turns) (w : Workspace) : (do
      let first ← Compilation.at Tree.root (start t Tree.root none)
      run cfg t turns [first] : Compilation Unit) w = compileNode cfg ht Tree.root none w := by
  rw [compileNode_eq]
  cases hstart : Compilation.at Tree.root (start t Tree.root none) w with
  | error e w₁ => rw [bind_of_error hstart, bind_of_error hstart]
  | ok first w₁ =>
    rw [bind_of_yields hstart, bind_of_yields hstart, run_eq_resumeAll ht, resumeAll, resumeAll,
      bind_pure_unit]
    have hleft := left_start ht hroot (Compilation.at_iff.mp hstart)
    have hweight := ht.weight_le_size hroot
    simp only [leftAll, List.map_cons, List.map_nil, List.sum_cons, List.sum_nil]
    unfold stepBound at hle
    omega

/-- Generation compiles the root by plain recursion, from every workspace: it ends in the same state
or fails with the same error. Its loop has come to its end by then, so that more turns change
nothing. -/
theorem generate_eq_compileNode (cfg : Setting) (ht : t.Linked) (hroot : Tree.root < t.size)
    (w : Workspace) :
    generate cfg t w = compileNode cfg ht Tree.root none w ∧
      ∀ turns ≥ stepBound t, (do
        let first ← Compilation.at Tree.root (start t Tree.root none)
        run cfg t turns [first] : Compilation Unit) w = generate cfg t w := by
  have hgenerate : generate cfg t w = compileNode cfg ht Tree.root none w :=
    run_start_eq_compileNode cfg ht hroot (Nat.le_refl _) w
  exact ⟨hgenerate, fun turns hle =>
    (run_start_eq_compileNode cfg ht hroot hle w).trans hgenerate.symm⟩

/-- A conditional with an assignment in one branch and a loop in the other, so that up to five units
are on the stack and go on after their children, in an arena with a node that is not below the root. -/
theorem generate_eq_compileNode_nested : ∃ (t₀ t : Tree) (ht : t.Linked) (before w : Workspace),
    Tree.read "(var(x,1),if(true,=(x,2),while(false,=(x,3))))" = .ok t₀ ∧
      t = (t₀.create .null).2 ∧ t.weight Tree.root < t.size ∧
      Program.resolved ⟨.empty, true⟩ t = .ok before ∧ w.assembly.instructions.length = 18 ∧
      generate ⟨.empty, true⟩ t before = .ok () w ∧
      compileNode ⟨.empty, true⟩ ht Tree.root none before = .ok () w ∧
      ∀ turns ≥ stepBound t, (do
        let first ← Compilation.at Tree.root (start t Tree.root none)
        run ⟨.empty, true⟩ t turns [first] : Compilation Unit) before = .ok () w := by
  have hrun : (Tree.read "(var(x,1),if(true,=(x,2),while(false,=(x,3))))").toOption.any fun t₀ =>
      let t := (t₀.create .null).2
      decide (t.weight Tree.root < t.size) &&
        (Program.resolved ⟨.empty, true⟩ t).toOption.any fun before =>
          (generate ⟨.empty, true⟩ t before).casesOn
            (fun _ w => decide (w.assembly.instructions.length = 18)) fun _ _ => false := by
    decide +kernel
  obtain ⟨t₀, hread, -, -, hrun⟩ := Tree.read_of_any hrun
  rw [Bool.and_eq_true, decide_eq_true_iff] at hrun
  obtain ⟨hweight, hrun⟩ := hrun
  obtain ⟨before, hresolved, hrun⟩ := exists_ok_of_any hrun
  have ht : (t₀.create .null).2.Linked := (Tree.Reachable.create (.read hread) .null none).linked
  obtain ⟨hrecursion, hturns⟩ := generate_eq_compileNode ⟨.empty, true⟩ ht
    (Nat.lt_of_le_of_lt (Nat.zero_le _) hweight) before
  cases hgenerate : generate ⟨.empty, true⟩ (t₀.create .null).2 before with
  | error e w =>
    simp only [hgenerate] at hrun
    cases hrun
  | ok u w =>
    simp only [hgenerate, decide_eq_true_iff] at hrun
    exact ⟨t₀, _, ht, before, w, hread, rfl, hweight, hresolved, hrun, hgenerate,
      hrecursion.symm.trans hgenerate, fun turns hle => (hturns turns hle).trans hgenerate⟩

end Generation

end SexprAsm
