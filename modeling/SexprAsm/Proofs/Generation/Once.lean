import SexprAsm.Proofs.Generation.Traversal

/-!
# No node is compiled twice

`Walk` follows the numbers of the nodes, which go down a tree only if the tree has been read from a
source. In any tree whose links agree, the units of a stack still stand on a path that leads down
from the root, and nothing that a unit still goes to has been started before, nor anything below it
(`Tour`). So a label never has more blocks that begin than have been declared for it, whatever the
tree.
-/

namespace SexprAsm

open Generation Resolution

/-! ## Ancestors -/

namespace Tree

variable {t : Tree} {a c p id : NodeId}

/-- No node is below its own child. -/
theorem Linked.not_ancestorOrSelf_parent (h : t.Linked) (hparent : t.parent? c = some p) :
    ¬ t.AncestorOrSelf c p := by
  obtain ⟨rank, hrank⟩ := h.ranked
  have hle : ∀ {a id : NodeId}, t.AncestorOrSelf a id → rank id ≤ rank a := by
    intro a id hanc
    induction hanc with
    | self => exact Nat.le_refl _
    | up hup _ ih => exact (hrank _ _ hup).le.trans ih
  intro hanc
  exact absurd (hrank c p hparent) (Nat.not_lt.mpr (hle hanc))

theorem AncestorOrSelf.eq_or_parent (h : t.AncestorOrSelf a c) (hparent : t.parent? c = some p) :
    a = c ∨ t.AncestorOrSelf a p := by
  cases h with
  | self => exact Or.inl rfl
  | up hup hanc =>
    obtain rfl := Option.some.inj (hup.symm.trans hparent)
    exact Or.inr hanc

end Tree

/-! ## Units on their way -/

/-- The unit `v` stands below the unit `u` on the stack: it has gone to the node of `u`, or to an
ancestor of it, and to none of these again. -/
structure WorkUnit.Supports (t : Tree) (u v : WorkUnit) : Prop where
  ancestor : t.AncestorOrSelf v.node u.node
  ne : v.node ≠ u.node
  begun : v.step ≠ 0
  apart : ∀ child ∈ v.ahead t, ¬ t.AncestorOrSelf child u.node

/-- The units of a stack lead down the tree. Some nodes have been started: nothing that is still to
be started is one of them or an ancestor of one. -/
structure Tour (t : Tree) (before : Workspace) (seen : List NodeId) (stack : List WorkUnit) :
    Prop where
  units : ∀ u ∈ stack, ∃ construct, before.construct? u.node = some construct ∧
    u.task.initial = .ofConstruct construct
  supports : stack.Pairwise (WorkUnit.Supports t)
  nodup : seen.Nodup
  fresh : ∀ id ∈ seen, ∀ u ∈ stack, (u.step = 0 → ¬ t.AncestorOrSelf u.node id) ∧
    ∀ child ∈ u.ahead t, ¬ t.AncestorOrSelf child id

section

variable {cfg : Setting} {t : Tree} {u u' : WorkUnit} {rest stack' : List WorkUnit}
  {before w w' : Workspace} {p : Progress} {seen new : List NodeId}

/-- A step leaves less ahead, and no longer the child that it goes to. -/
theorem ahead_step_linked (ht : t.Linked) (h : Yields (step cfg t u) w (p, u') w') (hp : p ≠ .done) :
    (∀ child ∈ u'.ahead t, child ∈ u.ahead t) ∧ ∀ child target, p = .descend child target →
      child ∈ u.ahead t ∧ child ∉ u'.ahead t := by
  rcases ahead_cases h hp with ⟨n, child, hdrop, hahead, hgoes⟩ | ⟨hempty, child, target, hmem, rfl⟩
  · have hnodup : (u.ahead t).Nodup := by
      rw [hdrop]
      exact (ht.nodup u.node).sublist (List.drop_sublist _ _)
    rw [hahead] at hnodup ⊢
    refine ⟨fun other hother => List.mem_cons_of_mem _ hother, fun other target hp' => ?_⟩
    rw [hgoes other target hp']
    exact ⟨List.mem_cons_self, (List.nodup_cons.mp hnodup).1⟩
  · rw [hempty]
    refine ⟨by simp, fun other target' hp' => ⟨?_, by simp⟩⟩
    rw [← (Progress.descend.inj hp').1]
    exact hmem

namespace Tour

theorem push {v : WorkUnit} (h : Tour t before seen rest)
    (hunit : ∃ construct, before.construct? v.node = some construct ∧
      v.task.initial = .ofConstruct construct) (hsupports : ∀ u ∈ rest, v.Supports t u)
    (hfresh : ∀ id ∈ seen, (v.step = 0 → ¬ t.AncestorOrSelf v.node id) ∧
      ∀ child ∈ v.ahead t, ¬ t.AncestorOrSelf child id) : Tour t before seen (v :: rest) :=
  ⟨List.forall_mem_cons.mpr ⟨hunit, h.units⟩, List.pairwise_cons.mpr ⟨hsupports, h.supports⟩,
    h.nodup, fun id hid => List.forall_mem_cons.mpr ⟨hfresh id hid, h.fresh id hid⟩⟩

/-- The units below a unit do not go to its node, once this has been started. -/
theorem below (h : Tour t before seen (u :: rest)) (hnew : new = [] ∨ new = [u.node] ∧ u.step = 0) :
    Tour t before (seen ++ new) rest := by
  obtain ⟨-, hunits⟩ := List.forall_mem_cons.mp h.units
  obtain ⟨hover, hsupports⟩ := List.pairwise_cons.mp h.supports
  rcases hnew with rfl | ⟨rfl, hzero⟩
  · rw [List.append_nil]
    exact ⟨hunits, hsupports, h.nodup,
      fun id hid => (List.forall_mem_cons.mp (h.fresh id hid)).2⟩
  refine ⟨hunits, hsupports, ?_, fun id hid v hv => ?_⟩
  · refine List.nodup_append.mpr ⟨h.nodup, List.nodup_singleton _, fun id hid other hother => ?_⟩
    rw [List.mem_singleton.mp hother]
    rintro rfl
    exact (h.fresh _ hid u List.mem_cons_self).1 hzero .self
  · rcases List.mem_append.mp hid with hid | hid
    · exact h.fresh id hid v (List.mem_cons_of_mem _ hv)
    · obtain rfl := List.mem_singleton.mp hid
      obtain ⟨-, -, hbegun, hapart⟩ := hover v hv
      exact ⟨fun hzero => absurd hzero hbegun, hapart⟩

/-- A unit that goes on stands over the same units. -/
theorem step (ht : t.Linked) (h : Tour t before seen (u :: rest))
    (hstep : Yields (step cfg t u) w (p, u') w') (hp : p ≠ .done)
    (hnew : new = [] ∨ new = [u.node] ∧ u.step = 0) : Tour t before (seen ++ new) (u' :: rest) := by
  obtain ⟨construct, hconstruct, hinitial⟩ := h.units u List.mem_cons_self
  obtain ⟨hnode, hcount, hinitial', -⟩ := step_counts hstep
  obtain ⟨hahead, -⟩ := ahead_step_linked ht hstep hp
  refine (h.below hnew).push ⟨construct, hnode ▸ hconstruct, hinitial'.trans hinitial⟩
    (fun v hv => ?_) fun id hid => ⟨fun hzero => ?_, fun child hchild => ?_⟩
  · obtain ⟨hancestor, hne, hbegun, hapart⟩ := (List.pairwise_cons.mp h.supports).1 v hv
    exact ⟨by rwa [hnode], by rwa [hnode], hbegun, by rwa [hnode]⟩
  · exact absurd (hcount.symm.trans hzero) (Nat.succ_ne_zero _)
  · rcases List.mem_append.mp hid with hid | hid
    · exact (h.fresh id hid u List.mem_cons_self).2 child (hahead child hchild)
    · obtain rfl : id = u.node := by
        rcases hnew with rfl | ⟨rfl, -⟩
        · cases hid
        · exact List.mem_singleton.mp hid
      exact ht.not_ancestorOrSelf_parent
        ((ht.mem_iff _ _).mp (mem_children_of_ahead (hahead child hchild)))

/-- A turn of the loop leads on; the node of the unit that takes its first step may be noted as
started. -/
theorem move (ht : t.Linked) (h : Tour t before seen (u :: rest))
    (hmove : Move cfg t (u :: rest) w stack' w') (hfindings : w'.findings = before.findings)
    (hnew : new = [] ∨ new = [u.node] ∧ u.step = 0) : Tour t before (seen ++ new) stack' := by
  cases hmove with
  | done hstep => exact h.below hnew
  | again hstep => exact h.step ht hstep (by simp) hnew
  | @descend _ u' next _ _ w₁ _ child target hstep hstart =>
    have hgone := h.step ht hstep (by simp) hnew
    obtain ⟨hnode, hcount, -⟩ := step_counts hstep
    obtain ⟨hmem, hnot⟩ := (ahead_step_linked ht hstep (by simp)).2 child target rfl
    have hparent := (ht.mem_iff u.node child).mp (mem_children_of_ahead hmem)
    have hdown := ht.not_ancestorOrSelf_parent hparent
    obtain ⟨rfl, construct, hconstruct, rfl⟩ := start_cases hstart
    have hfound : before.construct? child = some construct := by
      rw [← hconstruct, Workspace.construct?, Workspace.construct?, Workspace.finding,
        Workspace.finding, hfindings]
    -- Neither the child nor anything below it has been started.
    have hfresh : ∀ id ∈ seen ++ new, ¬ t.AncestorOrSelf child id := by
      intro id hid
      rcases List.mem_append.mp hid with hid | hid
      · exact (h.fresh id hid u List.mem_cons_self).2 child hmem
      · rcases hnew with rfl | ⟨rfl, -⟩
        · cases hid
        · exact List.mem_singleton.mp hid ▸ hdown
    refine hgone.push ⟨construct, hfound, Task.initial_ofConstruct _⟩ (fun v hv => ?_)
      fun id hid => ⟨fun _ => hfresh id hid, fun other hother hanc => ?_⟩
    · -- A unit that goes to an ancestor of the child goes to the child or to one of its parent.
      rcases List.mem_cons.mp hv with rfl | hv
      · refine ⟨.up (hnode ▸ hparent) .self, ?_, ?_, fun other hother hanc => ?_⟩
        · rw [hnode]
          intro (heq : u.node = child)
          exact hdown (heq ▸ .self)
        · rw [hcount]
          exact Nat.succ_ne_zero _
        · rcases hanc.eq_or_parent hparent with rfl | hanc
          · exact hnot hother
          · refine ht.not_ancestorOrSelf_parent ((ht.mem_iff _ _).mp ?_) hanc
            exact hnode ▸ mem_children_of_ahead hother
      · obtain ⟨hancestor, hne, hbegun, hapart⟩ := (List.pairwise_cons.mp h.supports).1 v hv
        refine ⟨.up hparent hancestor, ?_, hbegun, fun other hother hanc => ?_⟩
        · intro (heq : v.node = child)
          exact hdown (heq ▸ hancestor)
        · rcases hanc.eq_or_parent hparent with rfl | hanc
          · have hparent' := (ht.mem_iff _ _).mp (mem_children_of_ahead hother)
            exact hne (Option.some.inj (hparent'.symm.trans hparent))
          · exact hapart other hother hanc
    · exact hfresh id hid (hanc.trans_up ((ht.mem_iff _ _).mp (mem_children_of_ahead hother)))

theorem start (h : Yields (start t Tree.root none) before u before) : Tour t before [] [u] := by
  obtain ⟨-, construct, hconstruct, rfl⟩ := start_cases h
  have hempty : Tour t before [] [] := ⟨by simp, .nil, .nil, by simp⟩
  exact hempty.push ⟨construct, hconstruct, Task.initial_ofConstruct _⟩ (by simp) (by simp)

theorem construct_of_isEvent {stack : List WorkUnit} (h : Tour t before seen stack)
    (hu : u ∈ stack) (hevent : u.task.isEvent = true) : before.construct? u.node = some .event := by
  obtain ⟨construct, hconstruct, hinitial⟩ := h.units u hu
  rw [← Task.isEvent_initial, hinitial] at hevent
  cases construct with
  | event => exact hconstruct
  | _ => cases hevent

end Tour

end

end SexprAsm
