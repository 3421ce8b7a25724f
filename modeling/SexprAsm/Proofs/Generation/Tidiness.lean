import SexprAsm.Proofs.Generation.Changes
import SexprAsm.Proofs.Generation.Ownership
import SexprAsm.Proofs.Generation.Recursion
import SexprAsm.Proofs.Generation.Survival

/-!
# No temporary is left behind

Every temporary in use is held by a unit on the stack (`Tidy`), and a unit that is done holds none:
either its last step gives back what it holds, or it never holds any. So at the end, with an empty
stack, none is in use, and what has been rented on the way is back in the pool of its type, once
(`Program.resolved_tidy`).
-/

namespace SexprAsm

open Generation Workspace

section Runs

variable {cfg : Setting} {t : Tree} {u u' : WorkUnit} {stack stack' rest : List WorkUnit}
  {before w w' : Workspace} {p : Progress} {name : String} {type : TypeId}

/-- A unit that gives nothing back holds what it held, and one that does holds nothing once it is
done. -/
theorem step_temps (hw : Vocabulary (fun _ => True) t w)
    (h : Yields (step cfg t u) w (p, u') w') :
    (u.task.givesBack = false → u'.temps = u.temps) ∧
      (p = .done → u.task.givesBack = true → u'.temps = []) := by
  cases hlocal : u.task.isLocal with
  | true =>
    have hfootprint := step_footprint (D := fun _ => True) hw (fun _ _ => trivial) hlocal h
    exact ⟨hfootprint.untouched, hfootprint.released⟩
  | false =>
    obtain ⟨node, target, n, temps, task⟩ := u
    cases task with
    | event skip =>
      obtain ⟨first, label, -, -, ⟨-, skip', body, w₁, -, -, -, -, rfl⟩ | ⟨-, -, rfl, -⟩⟩ :=
        stepEvent_cases h
      · exact ⟨fun _ => rfl, fun _ hgives => by cases hgives⟩
      · exact ⟨fun _ => rfl, fun _ hgives => by cases hgives⟩
    | callEvent =>
      obtain ⟨_, -, -, rfl, rfl⟩ := step_callEvent_cases h
      exact ⟨fun _ => rfl, fun _ hgives => by cases hgives⟩
    | inlineAsm =>
      obtain ⟨_, -, -, rfl, rfl⟩ := step_inlineAsm_cases h
      exact ⟨fun _ => rfl, fun _ hgives => by cases hgives⟩
    | _ => cases hlocal

/-- What a run keeps: every temporary in use is held by a unit of the stack that gives back what it
holds. -/
structure Tidy (t : Tree) (before : Workspace) (stack : List WorkUnit) (w : Workspace) : Prop where
  attended : Attended t before stack w
  held : ∀ name, w.rented.get? name ≠ none → name ∈ stack.flatMap (·.temps)
  idle : ∀ u ∈ stack, u.task.givesBack = false → u.temps = []

theorem Tidy.step (h : Tidy t before (u :: rest) w)
    (hstep : Yields (Generation.step cfg t u) w (p, u') w') :
    Tidy t before (u' :: rest) w' ∧ (p = .done → u'.temps = []) := by
  obtain ⟨-, -, hinitial, -⟩ := step_counts hstep
  obtain ⟨huntouched, hreleased⟩ := step_temps h.attended.vocabulary hstep
  have hspares := step_spares (D := fun _ => True) h.attended.vocabulary
    ⟨fun _ _ _ => trivial, trivial, fun _ _ _ => ⟨trivial, trivial⟩⟩ (fun _ _ => trivial) hstep
  have hidle := h.idle
  rw [List.forall_mem_cons] at hidle
  have hgives : u'.task.givesBack = u.task.givesBack := by
    rw [← Task.givesBack_initial, hinitial, Task.givesBack_initial]
  have hown : u.task.givesBack = false → u'.temps = [] := fun hfalse =>
    (huntouched hfalse).trans (hidle.1 hfalse)
  refine ⟨⟨h.attended.step hstep, fun name hname => ?_, ?_⟩, fun hdone => ?_⟩
  · rw [List.flatMap_cons, List.mem_append]
    by_cases hmem : name ∈ u'.temps
    · exact Or.inl hmem
    · -- It was in use before, and not by this unit.
      right
      have hbeneath := hspares.beneath name
      rw [WorkUnit.beneath, WorkUnit.beneath, if_neg hmem] at hbeneath
      split at hbeneath
      next => exact absurd hbeneath hname
      next hnot =>
        have hheld := h.held name (hbeneath ▸ hname)
        rw [List.flatMap_cons, List.mem_append] at hheld
        exact hheld.resolve_left hnot
  · rw [List.forall_mem_cons]
    exact ⟨fun hfalse => hown (hgives ▸ hfalse), hidle.2⟩
  · cases hgive : u.task.givesBack with
    | true => exact hreleased hdone hgive
    | false => exact hown hgive

theorem Tidy.move (h : Tidy t before stack w) (hmove : Move cfg t stack w stack' w') :
    Tidy t before stack' w' := by
  have hattended := h.attended.move hmove
  cases hmove with
  | done hstep =>
    obtain ⟨hnext, hnone⟩ := h.step hstep
    refine ⟨hattended, fun name hname => ?_, (List.forall_mem_cons.mp hnext.idle).2⟩
    have hheld := hnext.held name hname
    rw [List.flatMap_cons, hnone rfl, List.nil_append] at hheld
    exact hheld
  | again hstep => exact (h.step hstep).1
  | descend hstep hstart =>
    obtain ⟨hnext, -⟩ := h.step hstep
    obtain ⟨rfl, construct, -, rfl⟩ := start_cases hstart
    refine ⟨hattended, fun name hname => ?_, ?_⟩
    · rw [List.flatMap_cons, List.nil_append]
      exact hnext.held name hname
    · rw [List.forall_mem_cons]
      exact ⟨fun _ => rfl, hnext.idle⟩

theorem Generation.Reaches.tidy (h : Reaches cfg t stack w stack' w') (hw : Tidy t before stack w) :
    Tidy t before stack' w' := by
  induction h with
  | refl => exact hw
  | head hmove _ ih => exact ih (hw.move hmove)

theorem Resolution.Prepared.tidy (h : Resolution.Prepared cfg t before)
    (hstart : Yields (start t Tree.root none) before u before) : Tidy t before [u] before := by
  refine ⟨h.attended hstart, fun name hname => ?_, fun v hv _ => ?_⟩
  · rw [h.unstarted.rented] at hname
    exact absurd rfl hname
  · obtain ⟨-, construct, -, rfl⟩ := start_cases hstart
    rw [List.mem_singleton.mp hv]

/-- Units on the stack hold different temporaries. -/
theorem Attended.pairwise (h : Attended t before stack w) :
    stack.Pairwise fun u v => u.temps.Disjoint v.temps :=
  (List.nodup_flatMap.mp h.nodup).2

/-- A temporary that has been rented on the way to a state where none is, is free there. -/
theorem Workspace.Pooled.free_of_rent {w₁ w₂ : Workspace} (hw : w₁.Pooled)
    (hrent : Yields (Build.rent cfg type) w₁ name w₂) (hlater : Proceeds cfg w₂ w)
    (hnone : ∀ name, w.rented.get? name = none) :
    (w.freeOf type).count name = 1 ∧ (∀ other ≠ type, name ∉ w.freeOf other) ∧
      w.Temporary name type := by
  obtain ⟨-, hpooled₂, -, -, -, htemp, hrented⟩ := Build.rent_spec hrent hw
  have hpooled := hlater.pooled hpooled₂
  have htemp' := htemp.mono hlater.extends
  have hknown : w₂.Known name := known_iff.mpr (Or.inl ⟨type, by rw [hrented, if_pos rfl]⟩)
  obtain ⟨hnodup, hfree, -⟩ := pooled_iff.mp hpooled
  have hqueue : ∀ other, name ∈ w.freeOf other → other = type := fun other hother =>
    (hfree other name hother).2.unique htemp'
  rcases known_iff.mp (hlater.known hknown) with ⟨other, hother⟩ | ⟨other, hother⟩
  · rw [hnone] at hother
    cases hother
  · obtain rfl := hqueue other hother
    exact ⟨List.count_eq_one_of_mem (hnodup other) hother,
      fun other' hne hother' => hne (hqueue other' hother'), htemp'⟩

end Runs

/-- The units on the stack never share a temporary. When resolution and generation succeed, no
temporary is in use at the end, and each one that has been rented on the way is free there, once,
among those of its type. -/
theorem Program.resolved_tidy {cfg : Setting} {t : Tree} {before : Workspace} (ht : t.Linked)
    (hroot : Tree.root < t.size) (hresolved : Program.resolved cfg t = .ok before) :
    (∀ first stack w, Yields (start t Tree.root none) before first before →
        Reaches cfg t [first] before stack w →
        stack.Pairwise fun u v => u.temps.Disjoint v.temps) ∧
      ∀ after, Yields (generate cfg t) before () after →
        after.rented.size = 0 ∧ Proceeds cfg before after ∧
        ∀ w₁ type name w₂, Proceeds cfg before w₁ → Yields (Build.rent cfg type) w₁ name w₂ →
          Proceeds cfg w₂ after →
          (after.freeOf type).count name = 1 ∧ (∀ other ≠ type, name ∉ after.freeOf other) ∧
            ∃ v, after.assembly.heap.slots.get? name = some v ∧ v.type = type := by
  have hprepared := Program.resolved_prepared hresolved
  refine ⟨fun first stack w hstart hreaches => ?_, fun after hgenerated => ?_⟩
  · exact (hreaches.attended (hprepared.attended hstart)).pairwise
  · obtain ⟨first, hstart, hend⟩ := generate_reaches ht hroot hgenerated
    have htidy := hend.tidy (hprepared.tidy hstart)
    have hnone : ∀ name, after.rented.get? name = none := fun name => by
      by_contra hne
      exact absurd (htidy.held name hne) List.not_mem_nil
    refine ⟨OrderedMap.size_eq_zero hnone, hend.proceeds, fun w₁ type name w₂ hw₁ hrent hw₂ => ?_⟩
    obtain ⟨hcount, hother, -, hslot⟩ :=
      (hw₁.pooled hprepared.unstarted.pooled).free_of_rent hrent hw₂ hnone
    exact ⟨hcount, hother, hslot⟩

/-- The first step of a conditional rents a temporary for its condition. -/
theorem step_conditional_rents {cfg : Setting} {t : Tree} {w w' : Workspace} {p : Progress}
    {u u' : WorkUnit} (htask : u.task = .conditional none none []) (hfirst : u.step = 0)
    (hchildren : 1 < (t.children u.node).length) (h : Yields (step cfg t u) w (p, u') w') :
    ∃ branch type name, p = .descend branch (some name) ∧
      Yields (Build.rent cfg type) w name w' := by
  obtain ⟨node, target, n, temps, task⟩ := u
  obtain rfl : task = .conditional none none [] := htask
  obtain rfl : n = 0 := hfirst
  rcases stepConditional_cases h with ⟨hnone, -⟩ | ⟨branch, -, ⟨hodd, -⟩ |
    ⟨-, pending, exits, w₁, hends, ⟨-, type, name, hrent, rfl, -⟩ | ⟨hlast, -⟩⟩⟩
  · have := List.getElem?_eq_none_iff.mp hnone
    dsimp only at this hchildren
    omega
  · cases hodd
  · rcases hends with ⟨-, -, -, rfl⟩ | ⟨hne, -⟩
    · exact ⟨branch, type, name, rfl, hrent⟩
    · exact absurd rfl hne
  · dsimp only at hlast hchildren
    omega

/-- The temporary for a condition is rented and comes back. -/
theorem Program.resolved_tidy_condition : ∃ t before after type name w,
    Tree.read "if(true,1,2)" = .ok t ∧
      Program.resolved ⟨Catalog.empty, true⟩ t = .ok before ∧
      Yields (generate ⟨Catalog.empty, true⟩ t) before () after ∧
      Yields (Build.rent ⟨Catalog.empty, true⟩ type) before name w ∧
      after.rented.size = 0 ∧ (after.freeOf type).count name = 1 := by
  have hrun : ((Program.compile ⟨Catalog.empty, true⟩ "if(true,1,2)").toOption.map fun _ => ()) =
      some () := by
    decide +kernel
  obtain ⟨p, hp, -⟩ := exists_ok_of_map hrun
  obtain ⟨t, before, after, hstages⟩ := Program.compile_stages hp
  obtain ⟨x, -, hholds⟩ := Tree.read?_ok (Tree.read_eq_ok_iff.mp hstages.read)
  have hroot : (Tree.read "if(true,1,2)").toOption.all fun t =>
      (Program.resolved ⟨Catalog.empty, true⟩ t).toOption.all fun w =>
        decide (w.construct? Tree.root = some .conditional) &&
          decide (1 < (t.children Tree.root).length) := by
    decide +kernel
  rw [hstages.read, Except.toOption, Option.all_some, hstages.resolved, Except.toOption,
    Option.all_some, Bool.and_eq_true, decide_eq_true_iff, decide_eq_true_iff] at hroot
  obtain ⟨-, hafter⟩ := Program.resolved_tidy hholds.linked hholds.root_lt hstages.resolved
  obtain ⟨hsize, -, hfree⟩ := hafter after hstages.generated
  obtain ⟨first, hstart, hend⟩ := generate_reaches hholds.linked hholds.root_lt hstages.generated
  obtain ⟨-, construct, hconstruct, rfl⟩ := start_cases hstart
  obtain rfl := Option.some.inj (hconstruct.symm.trans hroot.1)
  cases hend with
  | head hmove hrest =>
    cases hmove with
    | done hstep =>
      obtain ⟨_, _, _, hp, -⟩ := step_conditional_rents rfl rfl hroot.2 hstep
      cases hp
    | again hstep =>
      obtain ⟨_, _, _, hp, -⟩ := step_conditional_rents rfl rfl hroot.2 hstep
      cases hp
    | descend hstep hnext =>
      obtain ⟨_, type, name, -, hrent⟩ := step_conditional_rents rfl rfl hroot.2 hstep
      obtain ⟨rfl, -⟩ := start_cases hnext
      exact ⟨t, before, after, type, name, _, hstages.read, hstages.resolved, hstages.generated,
        hrent, hsize, (hfree before type name _ .refl hrent hrest.proceeds).1⟩

end SexprAsm
