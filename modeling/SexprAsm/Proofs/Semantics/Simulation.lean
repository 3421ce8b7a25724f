import SexprAsm.Proofs.Generation.Ownership
import SexprAsm.Proofs.Semantics.Pieces

/-!
# Units do what their nodes mean

The code between the start and the end of the unit of a node does what the node is evaluated to
(`Translates`). The store of the machine holds the variables, the slots of literals, which never
change, and temporaries; those in use when the unit started are as they were when it ends, but for
the one that its value goes to (`Leaves`).
-/

namespace SexprAsm

open Generation Workspace Evaluation

/-! ## Code that is there to stay

The lemmas speak of the final code while units are still at work. `Settled` says from which place
on what has been emitted is final, and `Settled.earlier` carries it back over a step that patches
nothing else. -/

/-- From a place on, the code of a workspace is as it is in the end. -/
def Settled (final : Assembly) (lo : Nat) (w : Workspace) : Prop :=
  ∀ k, lo ≤ k → k < w.assembly.instructions.length →
    final.instructions[k]? = w.assembly.instructions[k]?

namespace Settled

variable {final : Assembly} {lo lo' : Nat} {w w' : Workspace}

theorem codeAt {piece : List Instruction} (h : Settled final lo w')
    (hcode : w'.assembly.instructions = w.assembly.instructions ++ piece)
    (hlo : lo ≤ w.assembly.instructions.length) :
    CodeAt final.instructions w.assembly.instructions.length piece := by
  intro k i hi
  have hk := (List.getElem?_eq_some_iff.mp hi).1
  rw [h _ (by omega) (by rw [hcode, List.length_append]; omega), hcode,
    List.getElem?_append_right (by omega), Nat.add_sub_cancel_left, hi]

/-- What is not touched any more has been settled before. -/
theorem earlier {jumps : List InstructionId} (h : Settled final lo w')
    (htouches : Touches jumps w w') (hlo : lo ≤ lo') (hjumps : ∀ k ∈ jumps, k < lo') :
    Settled final lo' w := by
  intro k hk hlt
  rw [h k (hlo.trans hk) (hlt.trans_le htouches.grows), htouches.code k hlt fun hmem => ?_]
  exact absurd (hjumps k hmem) (Nat.not_lt.mpr hk)

end Settled

/-! ## Stores that go together

`Matches` relates the store of the evaluation to that of the machine, before a piece of code;
`Leaves` does so after it, with the target and the temporaries that have to survive. The lemmas
pass from one to the other, where nothing was stored and where the target was. -/

theorem not_reserved_of_temp_const {name : String} (htemp : tempLead.toList <+: name.toList)
    (hconst : Heap.constantLead.toList <+: name.toList) : False := by
  have htake := List.prefix_iff_eq_take.mp htemp
  have htake' := List.prefix_iff_eq_take.mp hconst
  have h3 : tempLead.toList[2]? = Heap.constantLead.toList[2]? := by
    rw [htake, htake', List.getElem?_take, List.getElem?_take]
    rfl
  revert h3
  decide

section Stores

variable {V : Type}

/-- The store of the machine holds the variables, and literals in their slots. -/
structure Matches (start σ τ : Store V) : Prop where
  vars : ∀ x, ¬ Reserved x → τ x = σ x
  constants : ∀ x, Heap.constantLead.toList <+: x.toList → τ x = start x

/-- What a piece of code leaves behind that was to compute a value into a target. -/
structure Leaves (start : Store V) (target : Option String) (live : String → Prop) (τ : Store V)
    (r : Store V × V) (τ' : Store V) : Prop where
  vars : ∀ x, ¬ Reserved x → target ≠ some x → τ' x = r.1 x
  value : ∀ x, target = some x → τ' x = r.2
  constants : ∀ x, Heap.constantLead.toList <+: x.toList → τ' x = start x
  kept : ∀ x, live x → target ≠ some x → τ' x = τ x

variable {start σ τ τ₁ τ' : Store V} {target : Option String} {live live' : String → Prop}
  {r : Store V × V} {v : V}

/-- A value in a temporary leaves the variables alone. -/
theorem Leaves.matches (h : Leaves start target live τ r τ')
    (htarget : ∀ x, target = some x → Reserved x) : Matches start r.1 τ' :=
  ⟨fun x hx => h.vars x hx fun heq => hx (htarget x heq), h.constants⟩

theorem Leaves.rebase (h : Leaves start target live' τ₁ r τ')
    (hlive : ∀ x, live x → target ≠ some x → live' x)
    (hkept : ∀ x, live x → target ≠ some x → τ₁ x = τ x) : Leaves start target live τ r τ' :=
  ⟨h.vars, h.value, h.constants,
    fun x hx hne => (h.kept x (hlive x hx hne) hne).trans (hkept x hx hne)⟩

theorem Matches.leaves (h : Matches start σ τ) (hkept : ∀ x, live x → τ x = τ₁ x) :
    Leaves start none live τ₁ (σ, v) τ :=
  ⟨fun x hx _ => h.vars x hx, by simp, h.constants, fun x hx _ => hkept x hx⟩

/-- Storing the value in the target. -/
theorem Matches.leaves_update {x : String} (h : Matches start σ τ)
    (hx : ¬ Heap.constantLead.toList <+: x.toList)
    (hkept : ∀ y, live y → x ≠ y → τ y = τ₁ y) :
    Leaves start (some x) live τ₁ (σ, v) (Function.update τ x v) := by
  refine ⟨fun y hy hne => ?_, fun y hy => ?_, fun y hy => ?_, fun y hy hne => ?_⟩
  · rw [Function.update_of_ne fun heq => hne (congrArg some heq.symm)]
    exact h.vars y hy
  · rw [Option.some.inj hy, Function.update_self]
  · have hne : y ≠ x := fun heq => hx (heq ▸ hy)
    rw [Function.update_of_ne hne]
    exact h.constants y hy
  · have hne' : y ≠ x := fun heq => hne (congrArg some heq.symm)
    rw [Function.update_of_ne hne']
    exact hkept y hy hne'.symm

end Stores

/-! ## Units on their way to the end

`Job` gathers what is known of a unit in a compilation that succeeds, and `Job.cases` is its only
inversion: one step, with the same known of what comes after it. `Correct` is the statement for a
node that the modules for straight code and for control flow prove construct by construct. -/

/-- A compilation of a tree without events, with types checked. -/
structure Scene (cfg : Setting) (t : Tree) (before : Workspace) : Prop where
  check : cfg.typeCheck = true
  indexed : cfg.catalog.Indexed
  eventFree : EventFree cfg.catalog t before

/-- A unit that comes to its end in a compilation that has a final assembly. -/
structure Job (cfg : Setting) (t : Tree) (before : Workspace) (final : Assembly) (u : WorkUnit)
    (w w' : Workspace) : Prop where
  scene : Scene cfg t before
  under : Underway cfg t u w
  findings : w.findings = before.findings
  finishes : Finishes cfg t u w w'
  heap : w'.assembly.heap.Extends final.heap

/-- The slot that the value of a node goes to, if its value is used. -/
structure Aim (t : Tree) (before : Workspace) (id : NodeId) (target : Option String) : Prop where
  used : target.isSome = true → Used t before id
  free : ∀ x, target = some x → ¬ Heap.constantLead.toList <+: x.toList

section Jobs

variable {V : Type} {cfg : Setting} {t : Tree} {before : Workspace} {final : Assembly}
  {u u' : WorkUnit} {w w₁ w₂ w' : Workspace} {id : NodeId} {target : Option String}
  {host : Host V} {n levels : Nat}

namespace Job

theorem finished (h : Job cfg t before final u w w') : Underway.Finished cfg u w w' :=
  h.under.finished h.scene.check h.scene.indexed h.finishes

theorem coherent (h : Job cfg t before final u w w') : Coherent cfg.catalog w :=
  h.under.steady.coherent

theorem construct?_eq (h : Job cfg t before final u w w') (id : NodeId) :
    w.construct? id = before.construct? id := by
  rw [construct?, finding, h.findings]
  rfl

/-- The first step of a unit, and the units of what comes after it. The code of a child is settled
if that of its parent is. -/
theorem cases (h : Job cfg t before final u w w') :
    ∃ p u' w₁, Yields (step cfg t u) w (p, u') w₁ ∧ Owned u w u' w₁ ∧
      match p with
      | .done => w₁ = w'
      | .again => Job cfg t before final u' w₁ w'
      | .descend child target => ∃ next w₂, Yields (start t child target) w₁ next w₁ ∧
          Job cfg t before final next w₁ w₂ ∧ Job cfg t before final u' w₂ w' ∧
          (∀ x, w₂.rented.get? x = w₁.rented.get? x) ∧ Touches [] w₁ w₂ ∧
          ∀ lo, lo ≤ w₁.assembly.instructions.length → Settled final lo w' →
            Settled final w₁.assembly.instructions.length w₂ := by
  obtain ⟨hscene, hunder, hfindings, hfinishes, hheap⟩ := h
  obtain ⟨p, u', w₁, hstep, howned, hlater, hunder', hrest⟩ :=
    hunder.cases hscene.check hscene.indexed hfinishes
  refine ⟨p, u', w₁, hstep, howned, ?_⟩
  have hfindings' := hlater.findings.trans hfindings
  cases p with
  | done => exact hrest
  | again => exact ⟨hscene, hunder', hfindings', hrest, hheap⟩
  | descend child target =>
    obtain ⟨next, w₂, hstart, hnext, hchild, hunder₂, hfinishes₂⟩ := hrest
    have hdone := hnext.finished hscene.check hscene.indexed hchild
    have hdone₂ := hunder₂.finished hscene.check hscene.indexed hfinishes₂
    obtain ⟨-, construct, -, rfl⟩ := start_cases hstart
    refine ⟨_, w₂, hstart, ⟨hscene, hnext, hfindings', hchild, hdone₂.later.heap.trans hheap⟩,
      ⟨hscene, hunder₂, hdone.later.findings.trans hfindings', hfinishes₂, hheap⟩, fun x => ?_, ?_,
      fun lo hlo hsettled => ?_⟩
    · rw [hdone.rented, WorkUnit.beneath, if_neg List.not_mem_nil]
    · have htouches := hdone.touches
      cases construct <;> exact htouches
    · exact hsettled.earlier hdone₂.touches hlo fun k hk => (howned.jumps k hk).2

end Job

variable (host n) in
/-- The code of a node does what the node is evaluated to. -/
def Translates (cfg : Setting) (t : Tree) (before : Workspace) (final : Assembly) (levels : Nat)
    (id : NodeId) (target : Option String) (w w' : Workspace) : Prop :=
  ∀ σ τ, Matches (host.initial final.heap) σ τ →
    Does host cfg.catalog final.instructions n w.assembly.instructions.length
      w'.assembly.instructions.length τ (eval host cfg.catalog t before n levels id σ)
      (Leaves (host.initial final.heap) target (fun x => w.rented.get? x ≠ none) τ)

variable (host n) in
/-- The units of a node do what the node is evaluated to. -/
def Correct (cfg : Setting) (t : Tree) (before : Workspace) (final : Assembly) (levels : Nat)
    (id : NodeId) : Prop :=
  ∀ target u w w', Yields (start t id target) w u w → Job cfg t before final u w w' →
    Aim t before id target → Settled final w.assembly.instructions.length w' →
    Translates host n cfg t before final levels id target w w'

/-- A temporary in use has a name of its kind. -/
theorem Coherent.reserved_of_rented {c : Catalog} (h : Coherent c w) {x : String}
    (hx : w.rented.get? x ≠ none) : tempLead.toList <+: x.toList := by
  cases hget : w.rented.get? x with
  | none => exact absurd hget hx
  | some type => exact (h.pooled.rented x type hget).1

/-- The slot of a literal holds it all the time. -/
theorem Matches.constant {σ τ : Store V} {value : Value} {slot : String} {heap : Heap}
    (h : Matches (host.initial final.heap) σ τ) (hscene : Scene cfg t before)
    (hin : (Operand.const value).In cfg.catalog heap slot) (hheap : heap.Extends final.heap) :
    τ slot = host.ofValue value := by
  obtain ⟨hlead, v, hv, hvalue⟩ := hin
  have hkeeps : cfg.catalog.KeepsNull :=
    ⟨hscene.indexed.names.1, fun name hname => hscene.eventFree.predefined name (Or.inr hname)⟩
  rw [h.constants slot hlead, Host.initial, hheap.slots slot v hv, Option.bind_some,
    hvalue fun _ => hkeeps]

/-- Running the code that copies a slot to a target, if there is one. -/
theorem exists_copyRun {start σ τ τ₁ : Store V} {live : String → Prop} {slot : String} {v : V}
    {lo : Nat} {c : Catalog}
    (hcode : w'.assembly.instructions = w.assembly.instructions ++ copyCode slot target)
    (hsettled : Settled final lo w') (hlo : lo ≤ w.assembly.instructions.length)
    (hfree : ∀ x, target = some x → ¬ Heap.constantLead.toList <+: x.toList)
    (hmatch : Matches start σ τ₁) (hslot : target.isSome = true → τ₁ slot = v)
    (hkept : ∀ x, live x → target ≠ some x → τ₁ x = τ x) :
    ∃ k τ', Runs host c final.instructions k ⟨w.assembly.instructions.length, [], τ₁⟩
        ⟨w'.assembly.instructions.length, [], τ'⟩ ∧ Leaves start target live τ (σ, v) τ' := by
  have hcodeAt := hsettled.codeAt hcode hlo
  cases target with
  | none =>
    refine ⟨0, τ₁, ?_, hmatch.leaves fun x hx => hkept x hx (by simp)⟩
    rw [hcode, copyCode, List.append_nil]
    exact .refl _
  | some x =>
    refine ⟨3, Function.update τ₁ x v, ?_, hmatch.leaves_update (hfree x rfl) fun y hy hne =>
      hkept y hy fun heq => hne (Option.some.inj heq)⟩
    rw [hcode, List.length_append, ← hslot rfl]
    exact .copy hcodeAt

end Jobs

end SexprAsm
