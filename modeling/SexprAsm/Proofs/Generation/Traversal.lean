import SexprAsm.Proofs.EventBlocks
import SexprAsm.Proofs.Generation.Run

/-!
# The order in which nodes are compiled

The nodes of a tree are numbered before all that is below them, and units are started in just this
order: what a unit on the stack still goes to has higher numbers than all that has been started
(`Walk`). So no node is compiled twice. Below the unit of a node stand those of its ancestors, so a
block of an event that stands inside no other is never started over one.
-/

namespace SexprAsm

open Generation Resolution

/-! ## Numbers of nodes -/

theorem Forest.hi_eq_sum {t : Tree} {parent : Option NodeId} {lo hi : Nat} {ids : List NodeId}
    {xs : List Sexpr} (h : Forest t.nodes parent lo hi ids xs) (hhi : hi ≤ t.size) :
    hi = lo + (ids.map t.weight).sum := by
  have hmap : ids.map t.sexpr = xs := h.map_sexprWithin t.size (by omega)
  rw [← t.sizeAll_map_sexpr, hmap]
  exact h.hi_eq

/-- The nodes of a row are numbered one subtree after the other. -/
theorem Forest.apart {t : Tree} (ht : t.Linked) {parent : Option NodeId} {lo hi : Nat}
    {ids : List NodeId} {xs : List Sexpr} (h : Forest t.nodes parent lo hi ids xs)
    (hhi : hi ≤ t.size) :
    (∀ id : Nat, id ∈ ids → lo ≤ id ∧ id + t.weight id ≤ hi) ∧
      ids.Pairwise fun a b : Nat => a + t.weight a ≤ b := by
  induction h with
  | nil => exact ⟨by simp, .nil⟩
  | @cons parent lo mid hi ids items rest node hget hparent hitems hrest _ ih =>
    obtain ⟨hbounds, hapart⟩ := ih hhi
    have hle := hrest.le
    have hlt : lo < t.size := (Array.getElem?_eq_some_iff.mp hget).1
    have hchildren : t.children lo = node.children := by
      rw [Tree.children, Tree.node_eq, hget]
      rfl
    have hmid : lo + t.weight lo = mid := by
      have hsum := hitems.hi_eq_sum (hle.trans hhi)
      rw [ht.weight_eq hlt, hchildren]
      omega
    refine ⟨fun id hid => ?_, List.pairwise_cons.mpr ⟨fun id hid => ?_, hapart⟩⟩
    · rcases List.mem_cons.mp hid with rfl | hid
      · omega
      · have := hbounds id hid
        omega
    · have := hbounds id hid
      omega

theorem Tree.Holds.children_apart {t : Tree} {x : Sexpr} (ht : t.Holds x) {id : NodeId}
    (hid : id < t.size) :
    (∀ child : Nat, child ∈ t.children id → id < child ∧
        child + t.weight child ≤ (id : Nat) + t.weight id) ∧
      (t.children id).Pairwise fun a b : Nat => a + t.weight a ≤ b := by
  obtain ⟨node, hnode⟩ : ∃ node, t.nodes[id]? = some node := ⟨_, Array.getElem?_eq_getElem hid⟩
  have hchildren : t.children id = node.children := by
    rw [Tree.children, Tree.node_eq, hnode]
    rfl
  obtain ⟨hi, ys, hforest, hhi⟩ := Forest.subrow ht (Nat.zero_le id) hid hnode
  obtain ⟨hbounds, hapart⟩ := hforest.apart ht.linked hhi
  have hsum := hforest.hi_eq_sum hhi
  have hweight := ht.linked.weight_eq hid
  rw [hchildren] at hweight ⊢
  refine ⟨fun child hchild => ?_, hapart⟩
  obtain ⟨hlo, hstop⟩ := hbounds child hchild
  exact ⟨hlo, by omega⟩

/-! ## Units in order -/

/-- The children that a unit still goes to. -/
def WorkUnit.ahead (t : Tree) (u : WorkUnit) : List NodeId :=
  if u.task.skipsName = true ∧ u.step ≠ 0 then [] else (t.children u.node).drop u.step

/-- The unit `v` stands below the unit `u` on the stack: it has gone to the node of `u`, or to an
ancestor of it, and what it still goes to comes after all that is below that node. -/
structure WorkUnit.Under (t : Tree) (u v : WorkUnit) : Prop where
  ancestor : t.AncestorOrSelf v.node u.node
  lt : v.node < u.node
  begun : v.step ≠ 0
  after : ∀ child ∈ v.ahead t, u.node + t.weight u.node ≤ child

/-- The units of a stack go through the tree in the order of its numbers. Some nodes have been
started: all that is still to be started comes after them. -/
structure Walk (t : Tree) (before : Workspace) (seen : List NodeId) (stack : List WorkUnit) :
    Prop where
  units : ∀ u ∈ stack, u.node < t.size ∧ ∃ construct, before.construct? u.node = some construct ∧
    u.task.initial = .ofConstruct construct
  under : stack.Pairwise (WorkUnit.Under t)
  increasing : seen.Pairwise (· < ·)
  passed : ∀ id ∈ seen, ∀ u ∈ stack, (u.step = 0 → id < u.node) ∧ ∀ child ∈ u.ahead t, id < child

section

variable {cfg : Setting} {t : Tree} {x : Sexpr} {u u' : WorkUnit} {rest stack' : List WorkUnit}
  {before w w' : Workspace} {p : Progress} {seen new : List NodeId}

/-- A step takes the first of the children that are ahead, or the only one that is compiled. -/
theorem ahead_cases (h : Yields (step cfg t u) w (p, u') w') (hp : p ≠ .done) :
    (∃ n child, u.ahead t = (t.children u.node).drop n ∧ u.ahead t = child :: u'.ahead t ∧
        ∀ other target, p = .descend other target → other = child) ∨
      u'.ahead t = [] ∧ ∃ child target, child ∈ u.ahead t ∧ p = .descend child target := by
  obtain ⟨hnode, hcount, hinitial, -, hcases⟩ := step_counts h
  have hskips : u'.task.skipsName = u.task.skipsName := by
    rw [← Task.skipsName_initial, hinitial, Task.skipsName_initial]
  rcases hcases with rfl | ⟨hskip, child, hchild, hp'⟩ | ⟨hskip, hzero, child, target, hchild, rfl⟩
  · exact absurd rfl hp
  · refine Or.inl ⟨u.step, child, if_neg (by simp [hskip]), ?_, fun other target hp'' => ?_⟩
    · obtain ⟨hlt, rfl⟩ := List.getElem?_eq_some_iff.mp hchild
      rw [WorkUnit.ahead, WorkUnit.ahead, if_neg (by simp [hskip]), if_neg (by simp [hskips, hskip]),
        hnode, hcount, List.drop_eq_getElem_cons hlt]
    · rcases hp' with rfl | ⟨_, rfl⟩
      · cases hp''
      · exact (Progress.descend.inj hp'').1.symm
  · refine Or.inr ⟨if_pos ⟨hskips.trans hskip, by rw [hcount]; exact Nat.succ_ne_zero _⟩,
      child, target, ?_, rfl⟩
    rw [WorkUnit.ahead, if_neg (by simp [hzero]), hzero]
    exact List.mem_of_getElem? hchild

/-- A step leaves less ahead, and a child that it goes to comes before all that it leaves. -/
theorem ahead_step (ht : t.Holds x) (hu : u.node < t.size)
    (h : Yields (step cfg t u) w (p, u') w') (hp : p ≠ .done) :
    (∀ child ∈ u'.ahead t, child ∈ u.ahead t) ∧ ∀ child target, p = .descend child target →
      child ∈ u.ahead t ∧ ∀ other ∈ u'.ahead t, child + t.weight child ≤ other := by
  rcases ahead_cases h hp with ⟨n, child, hdrop, hahead, hgoes⟩ | ⟨hempty, child, target, hmem, rfl⟩
  · -- What is left of the children is numbered after the first of them.
    have hapart : (u.ahead t).Pairwise fun a b => a + t.weight a ≤ b := by
      rw [hdrop]
      exact (ht.children_apart hu).2.sublist (List.drop_sublist _ _)
    rw [hahead] at hapart ⊢
    refine ⟨fun other hother => List.mem_cons_of_mem _ hother, fun other target hp' => ?_⟩
    rw [hgoes other target hp']
    exact ⟨List.mem_cons_self, (List.pairwise_cons.mp hapart).1⟩
  · rw [hempty]
    refine ⟨by simp, fun other target' hp' => ⟨?_, by simp⟩⟩
    rw [← (Progress.descend.inj hp').1]
    exact hmem

theorem mem_children_of_ahead {child : NodeId} (h : child ∈ u.ahead t) :
    child ∈ t.children u.node := by
  unfold WorkUnit.ahead at h
  split at h
  · cases h
  · exact List.mem_of_mem_drop h

theorem Walk.push {v : WorkUnit} (h : Walk t before seen rest)
    (hunit : v.node < t.size ∧ ∃ construct, before.construct? v.node = some construct ∧
      v.task.initial = .ofConstruct construct) (hunder : ∀ u ∈ rest, v.Under t u)
    (hpassed : ∀ id ∈ seen, (v.step = 0 → id < v.node) ∧ ∀ child ∈ v.ahead t, id < child) :
    Walk t before seen (v :: rest) := by
  refine ⟨List.forall_mem_cons.mpr ⟨hunit, h.units⟩, List.pairwise_cons.mpr ⟨hunder, h.under⟩,
    h.increasing, fun id hid => List.forall_mem_cons.mpr ⟨hpassed id hid, h.passed id hid⟩⟩

/-- What is below a unit comes after the node of the unit, too, once this has been started. -/
theorem Walk.below (ht : t.Holds x) (h : Walk t before seen (u :: rest))
    (hnew : new = [] ∨ new = [u.node] ∧ u.step = 0) : Walk t before (seen ++ new) rest := by
  obtain ⟨⟨hu, -⟩, hunits⟩ := List.forall_mem_cons.mp h.units
  obtain ⟨hover, hunder⟩ := List.pairwise_cons.mp h.under
  rcases hnew with rfl | ⟨rfl, hzero⟩
  · rw [List.append_nil]
    exact ⟨hunits, hunder, h.increasing, fun id hid => (List.forall_mem_cons.mp (h.passed id hid)).2⟩
  refine ⟨hunits, hunder, ?_, fun id hid v hv => ?_⟩
  · refine List.pairwise_append.mpr ⟨h.increasing, List.pairwise_singleton _ _, fun id hid b hb => ?_⟩
    obtain rfl := List.mem_singleton.mp hb
    exact (h.passed id hid u List.mem_cons_self).1 hzero
  · rcases List.mem_append.mp hid with hid | hid
    · exact h.passed id hid v (List.mem_cons_of_mem _ hv)
    · obtain rfl := List.mem_singleton.mp hid
      obtain ⟨-, -, hbegun, hafter⟩ := hover v hv
      have hweight := ht.linked.one_le_weight hu
      exact ⟨fun hzero => absurd hzero hbegun, fun child hchild =>
        (Nat.lt_add_of_pos_right hweight).trans_le (hafter child hchild)⟩

/-- A unit that goes on stands over the same units. -/
theorem Walk.step (ht : t.Holds x) (h : Walk t before seen (u :: rest))
    (hstep : Yields (step cfg t u) w (p, u') w') (hp : p ≠ .done)
    (hnew : new = [] ∨ new = [u.node] ∧ u.step = 0) : Walk t before (seen ++ new) (u' :: rest) := by
  obtain ⟨hu, construct, hconstruct, hinitial⟩ := h.units u List.mem_cons_self
  obtain ⟨hnode, hcount, hinitial', -⟩ := step_counts hstep
  obtain ⟨hahead, -⟩ := ahead_step ht hu hstep hp
  refine (h.below ht hnew).push ⟨hnode ▸ hu, construct, hnode ▸ hconstruct, hinitial'.trans hinitial⟩
    (fun v hv => ?_) fun id hid => ⟨fun hzero => ?_, fun child hchild => ?_⟩
  · obtain ⟨hancestor, hlt, hbegun, hafter⟩ := (List.pairwise_cons.mp h.under).1 v hv
    exact ⟨by rwa [hnode], by rwa [hnode], hbegun, by rwa [hnode]⟩
  · exact absurd (hcount.symm.trans hzero) (Nat.succ_ne_zero _)
  · rcases List.mem_append.mp hid with hid | hid
    · exact (h.passed id hid u List.mem_cons_self).2 child (hahead child hchild)
    · obtain rfl : id = u.node := by
        rcases hnew with rfl | ⟨rfl, -⟩
        · cases hid
        · exact List.mem_singleton.mp hid
      exact ((ht.children_apart hu).1 child (mem_children_of_ahead (hahead child hchild))).1

/-- A turn of the loop keeps the order; the node of the unit that takes its first step may be noted
as started. -/
theorem Walk.move (ht : t.Holds x) (h : Walk t before seen (u :: rest))
    (hmove : Move cfg t (u :: rest) w stack' w') (hfindings : w'.findings = before.findings)
    (hnew : new = [] ∨ new = [u.node] ∧ u.step = 0) : Walk t before (seen ++ new) stack' := by
  obtain ⟨hu, -⟩ := h.units u List.mem_cons_self
  cases hmove with
  | done hstep => exact h.below ht hnew
  | again hstep => exact h.step ht hstep (by simp) hnew
  | @descend _ u' next _ _ w₁ _ child target hstep hstart =>
    have hgone := h.step ht hstep (by simp) hnew
    obtain ⟨hnode, hcount, -⟩ := step_counts hstep
    obtain ⟨hmem, hbefore⟩ := (ahead_step ht hu hstep (by simp)).2 child target rfl
    have hchild := mem_children_of_ahead hmem
    obtain ⟨hlt, hstop⟩ := (ht.children_apart hu).1 child hchild
    have hparent := (ht.linked.mem_iff u.node child).mp hchild
    have hsize := ht.linked.child_lt hchild
    obtain ⟨rfl, construct, hconstruct, rfl⟩ := start_cases hstart
    have hfound : before.construct? child = some construct := by
      rw [← hconstruct, Workspace.construct?, Workspace.construct?, Workspace.finding,
        Workspace.finding, hfindings]
    -- All that has been started has a lower number than the child.
    have hpassed : ∀ id ∈ seen ++ new, id < child := by
      intro id hid
      rcases List.mem_append.mp hid with hid | hid
      · exact (h.passed id hid u List.mem_cons_self).2 child hmem
      · rcases hnew with rfl | ⟨rfl, -⟩
        · cases hid
        · exact List.mem_singleton.mp hid ▸ hlt
    refine hgone.push ⟨hsize, construct, hfound, Task.initial_ofConstruct _⟩ (fun v hv => ?_)
      fun id hid => ⟨fun _ => hpassed id hid, fun other hother => ?_⟩
    · rcases List.mem_cons.mp hv with rfl | hv
      · refine ⟨.up (hnode ▸ hparent) .self, hnode ▸ hlt, ?_, hbefore⟩
        rw [hcount]
        exact Nat.succ_ne_zero _
      · obtain ⟨hancestor, hlt', hbegun, hafter⟩ := (List.pairwise_cons.mp h.under).1 v hv
        exact ⟨.up hparent hancestor, hlt'.trans hlt, hbegun,
          fun other hother => hstop.trans (hafter other hother)⟩
    · have hother' := (ht.children_apart hsize).1 other (mem_children_of_ahead hother)
      exact (hpassed id hid).trans hother'.1

theorem Walk.start (ht : t.Holds x) (h : Yields (start t Tree.root none) before u before) :
    Walk t before [] [u] := by
  obtain ⟨-, construct, hconstruct, rfl⟩ := start_cases h
  have hempty : Walk t before [] [] := ⟨by simp, .nil, .nil, by simp⟩
  exact hempty.push ⟨ht.root_lt, construct, hconstruct, Task.initial_ofConstruct _⟩ (by simp) (by simp)

/-! ## Blocks in order -/

/-- The task is a block of an event. -/
def Task.isEvent : Task → Bool
  | .event _ => true
  | _ => false

theorem Task.isEvent_initial (task : Task) : task.initial.isEvent = task.isEvent := by
  cases task <;> rfl

theorem Walk.construct_of_isEvent {stack : List WorkUnit} (h : Walk t before seen stack)
    (hu : u ∈ stack) (hevent : u.task.isEvent = true) : before.construct? u.node = some .event := by
  obtain ⟨-, construct, hconstruct, hinitial⟩ := h.units u hu
  rw [← Task.isEvent_initial, hinitial] at hevent
  cases construct with
  | event => exact hconstruct
  | _ => cases hevent

theorem Resolution.Prepared.isEvent (h : Prepared cfg t before) {id : NodeId}
    (hid : before.construct? id = some .event) : t.isEvent id = true :=
  Tree.isEvent_iff.mpr (h.meaning id .event hid)

/-- Where no blocks are nested, a block is not compiled over another one. -/
theorem Walk.not_isEvent_below (ht : t.Holds x) (hbefore : Prepared cfg t before)
    (hnested : t.NoNestedEvents) (h : Walk t before seen (u :: rest))
    (hevent : u.task.isEvent = true) : ∀ v ∈ rest, v.task.isEvent = false := by
  intro v hv
  refine Bool.eq_false_of_not_eq_true fun hevent' => ?_
  obtain ⟨hancestor, hlt, -⟩ := (List.pairwise_cons.mp h.under).1 v hv
  have hu := h.construct_of_isEvent List.mem_cons_self hevent
  have hv' := h.construct_of_isEvent (List.mem_cons_of_mem _ hv) hevent'
  refine Nat.ne_of_lt hlt (hnested v.node u.node (hbefore.isEvent hv') (hbefore.isEvent hu) ?_)
  exact (ht.linked.isAncestorOrSelf_iff (h.units u List.mem_cons_self).1).mpr hancestor

end

end SexprAsm
