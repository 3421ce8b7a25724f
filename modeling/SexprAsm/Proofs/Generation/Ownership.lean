import SexprAsm.Proofs.Generation.Footprint
import SexprAsm.Proofs.Generation.Steady

/-!
# Units keep to what is their own

While a unit is under way it appends code, gives targets to the jumps that it has emitted itself,
and rents temporaries that it gives back. So once a unit has come to its end, the code before it
is as it was (`Touches`), and so are the temporaries in use. This covers every task but those of
events, array fills and inline assembly.
-/

namespace SexprAsm

open Generation Workspace

theorem Operand.slots_of_vars {c : Catalog} {heap : Heap} {names slots : List String}
    (h : List.Forall₂ (Operand.In c heap) (names.map .var) slots) : slots = names := by
  rw [List.forall₂_map_left_iff] at h
  induction h with
  | nil => rfl
  | cons hslot _ ih => rw [hslot, ih]

/-- A call of variables pushes them as they are. -/
theorem Appends.callVars {cfg : Setting} {w w' : Workspace} {id : InstructionId}
    (hcheck : cfg.typeCheck = true) (hsound : w.assembly.heap.Sound)
    {name : String} {arguments : List String}
    (h : Yields (Compile.emit (Emit.call cfg name (arguments.map .var))) w id w') :
    ∃ op, cfg.catalog.operationNamed? name = some op ∧
      op.parameters.length = arguments.length ∧
      Appends w (arguments.map .push ++ [.call name]) w' := by
  obtain ⟨slots, heap, hin, happends, hchecked⟩ := Appends.call hsound h
  obtain rfl := Operand.slots_of_vars hin
  obtain ⟨op, hop, hlength⟩ := hchecked hcheck
  exact ⟨op, hop, hlength, happends⟩

/-! ## Steps -/

/-- The task is none of an event, an array fill or inline assembly. -/
def Task.isPlain : Task → Bool
  | .arrayFill _ _ | .inlineAsm | .event _ | .callEvent => false
  | _ => true

theorem Task.isPlain_initial (task : Task) : task.initial.isPlain = task.isPlain := by
  cases task <;> rfl

theorem Task.givesBack_initial (task : Task) : task.initial.givesBack = task.givesBack := by
  cases task <;> rfl

/-- What a step of a unit may do. -/
structure Owned (u : WorkUnit) (w : Workspace) (u' : WorkUnit) (w' : Workspace) : Prop where
  touches : Touches u.task.jumps w w'
  jumps : ∀ k ∈ u'.task.jumps, (k ∈ u.task.jumps ∨ w.assembly.instructions.length ≤ k) ∧
    k < w'.assembly.instructions.length
  beneath : ∀ name, u'.beneath w' name = u.beneath w name
  plain : u'.task.isPlain = true
  tidy : u'.task.givesBack = false → u'.temps = []

section Steps

variable {cfg : Setting} {t : Tree} {u u' : WorkUnit} {w w' : Workspace} {p : Progress}

/-- A step of a plain unit keeps to what is its own, and gives its temporaries back at the end. -/
theorem step_owned (hw : Coherent cfg.catalog w)
    (hplain : u.task.isPlain = true) (htidy : u.task.givesBack = false → u.temps = [])
    (hjumps : ∀ k ∈ u.task.jumps, k < w.assembly.instructions.length)
    (h : Yields (step cfg t u) w (p, u') w') : Owned u w u' w' ∧ (p = .done → u'.temps = []) := by
  have hlocal : u.task.isLocal = true := by
    generalize u.task = task at hplain
    cases task <;> first | rfl | cases hplain
  -- Which slots the new code names does not matter here.
  obtain ⟨hconfined, -, huntouched, hreleased⟩ :=
    step_footprint (P := fun _ => True) (D := fun _ => True)
      ⟨hw.sound, hw.pooled, fun _ _ _ => trivial, fun _ _ => trivial, fun _ _ _ => trivial⟩
      (fun _ _ => trivial) hlocal h
  obtain ⟨-, -, hinitial, -⟩ := step_counts h
  have hgives : u'.task.givesBack = u.task.givesBack := by
    rw [← Task.givesBack_initial, hinitial, Task.givesBack_initial]
  refine ⟨⟨hconfined.grows.touches, fun k hk => ?_, hconfined.beneath, ?_, fun hnot => ?_⟩,
    fun hdone => ?_⟩
  · rcases hconfined.jumps k hk with hk | ⟨hle, hlt⟩
    · exact ⟨Or.inl hk, (hjumps k hk).trans_le hconfined.grows.touches.grows⟩
    · exact ⟨Or.inr hle, hlt⟩
  · rw [← Task.isPlain_initial, hinitial, Task.isPlain_initial, hplain]
  · rw [hgives] at hnot
    rw [huntouched hnot, htidy hnot]
  · cases hback : u.task.givesBack with
    | true => exact hreleased hdone hback
    | false => rw [huntouched hback, htidy hback]

end Steps

/-! ## Whole units -/

/-- A plain unit that can go on, in a compilation of plain nodes. -/
structure Underway (cfg : Setting) (t : Tree) (u : WorkUnit) (w : Workspace) : Prop where
  steady : Steady cfg t [u] w
  plainNodes : ∀ id construct, w.construct? id = some construct →
    (Task.ofConstruct construct).isPlain = true
  plain : u.task.isPlain = true
  tidy : u.task.givesBack = false → u.temps = []
  jumps : ∀ k ∈ u.task.jumps, k < w.assembly.instructions.length

namespace Underway

variable {cfg : Setting} {t : Tree} {u u' : WorkUnit} {w w' : Workspace} {p : Progress}

theorem later (h : Underway cfg t u w) (hlater : w.Later w') (hw : Coherent cfg.catalog w')
    (hgrows : w.assembly.instructions.length ≤ w'.assembly.instructions.length) :
    Underway cfg t u w' := by
  have hsame : ∀ id, w'.construct? id = w.construct? id := by
    intro id
    rw [construct?, finding, hlater.findings]
    rfl
  refine ⟨⟨hw, h.steady.backed.later hlater, ?_, ?_⟩, ?_, h.plain, h.tidy, ?_⟩
  · intro id
    rw [hsame]
    exact h.steady.noAsm id
  · exact fun v hv => (h.steady.fits v hv).later hlater
  · intro id construct
    rw [hsame]
    exact h.plainNodes id construct
  · exact fun k hk => (h.jumps k hk).trans_le hgrows

/-- The unit of a plain node before its first step. -/
theorem ofStart {child : NodeId} {target : Option String}
    (hsteady : Steady cfg t [u] w) (hplain : ∀ id construct, w.construct? id = some construct →
      (Task.ofConstruct construct).isPlain = true)
    (h : Yields (start t child target) w u w') : Underway cfg t u w := by
  obtain ⟨-, construct, hconstruct, rfl⟩ := start_cases h
  refine ⟨hsteady, hplain, hplain child construct hconstruct, fun _ => rfl, ?_⟩
  cases construct <;> simp [Task.ofConstruct, Task.jumps]

theorem step (hcheck : cfg.typeCheck = true) (hc : cfg.catalog.Indexed) (h : Underway cfg t u w)
    (hstep : Yields (Generation.step cfg t u) w (p, u') w') :
    Owned u w u' w' ∧ (p = .done → u'.temps = []) ∧ w.Later w' ∧ Underway cfg t u' w' ∧
      ∀ child target next w'', p = .descend child target →
        Yields (start t child target) w' next w'' → w' = w'' ∧ Underway cfg t next w' := by
  obtain ⟨howned, htemps⟩ :=
    step_owned h.steady.coherent h.plain h.tidy h.jumps hstep
  obtain ⟨hout, hsteady⟩ := h.steady.step hcheck hc hstep
  have hplain : ∀ id construct, w'.construct? id = some construct →
      (Task.ofConstruct construct).isPlain = true := by
    intro id construct hconstruct
    rw [construct?, finding, hout.advances.later.findings] at hconstruct
    exact h.plainNodes id construct hconstruct
  refine ⟨howned, htemps, hout.advances.later, ⟨hsteady, hplain, howned.plain, howned.tidy,
    fun k hk => (howned.jumps k hk).2⟩, fun child target next w'' hp hstart => ?_⟩
  obtain ⟨rfl, hboth⟩ := hsteady.start hc (fun name hname => hout.descend child name (by
    rw [hp, hname])) hstart
  refine ⟨rfl, .ofStart ⟨hboth.coherent, hboth.backed, hboth.noAsm, ?_⟩ hplain hstart⟩
  exact fun v hv => hboth.fits v (List.mem_singleton.mp hv ▸ List.mem_cons_self)

/-- What a unit that has come to its end leaves behind. -/
structure Finished (cfg : Setting) (u : WorkUnit) (w w' : Workspace) : Prop where
  later : w.Later w'
  coherent : Coherent cfg.catalog w'
  touches : Touches u.task.jumps w w'
  rented : ∀ name, w'.rented.get? name = u.beneath w name

theorem finished (hcheck : cfg.typeCheck = true) (hc : cfg.catalog.Indexed)
    (h : Underway cfg t u w) (hfinishes : Finishes cfg t u w w') : Finished cfg u w w' := by
  induction hfinishes with
  | done hstep =>
    obtain ⟨howned, htemps, hlater, hnext, -⟩ := h.step hcheck hc hstep
    refine ⟨hlater, hnext.steady.coherent, howned.touches, fun name => ?_⟩
    rw [← howned.beneath, WorkUnit.beneath, htemps rfl, if_neg List.not_mem_nil]
  | again hstep _ ih =>
    obtain ⟨howned, -, hlater, hnext, -⟩ := h.step hcheck hc hstep
    obtain ⟨hlater', hcoherent, htouches, hrented⟩ := ih hnext
    refine ⟨hlater.trans hlater', hcoherent,
      howned.touches.trans htouches fun k hk => (howned.jumps k hk).1, fun name => ?_⟩
    rw [hrented, howned.beneath]
  | descend hstep hstart _ _ ihchild ihrest =>
    obtain ⟨howned, -, hlater, hnext, hdescend⟩ := h.step hcheck hc hstep
    obtain ⟨rfl, hchild⟩ := hdescend _ _ _ _ rfl hstart
    obtain ⟨hlater₁, hcoherent₁, htouches₁, hrented₁⟩ := ihchild hchild
    obtain ⟨hlater₂, hcoherent₂, htouches₂, hrented₂⟩ :=
      ihrest (hnext.later hlater₁ hcoherent₁ htouches₁.grows)
    -- The unit of the child starts without jumps and temporaries.
    obtain ⟨-, construct, -, rfl⟩ := start_cases hstart
    have htouches : Touches _ _ _ := howned.touches.trans htouches₁ fun k hk => by
      cases construct <;> cases hk
    refine ⟨hlater.trans (hlater₁.trans hlater₂), hcoherent₂,
      htouches.trans htouches₂ fun k hk => (howned.jumps k hk).1, fun name => ?_⟩
    rw [hrented₂, ← howned.beneath, WorkUnit.beneath, WorkUnit.beneath, hrented₁, WorkUnit.beneath,
      if_neg List.not_mem_nil]

/-- The first step of a unit that comes to its end, and what comes after it. -/
theorem cases (hcheck : cfg.typeCheck = true) (hc : cfg.catalog.Indexed)
    (h : Underway cfg t u w) (hfinishes : Finishes cfg t u w w') :
    ∃ p u' w₁, Yields (Generation.step cfg t u) w (p, u') w₁ ∧ Owned u w u' w₁ ∧ w.Later w₁ ∧
      Underway cfg t u' w₁ ∧
      match p with
      | .done => w₁ = w'
      | .again => Finishes cfg t u' w₁ w'
      | .descend child target => ∃ next w₂, Yields (start t child target) w₁ next w₁ ∧
          Underway cfg t next w₁ ∧ Finishes cfg t next w₁ w₂ ∧ Underway cfg t u' w₂ ∧
          Finishes cfg t u' w₂ w' := by
  cases hfinishes with
  | done hstep =>
    obtain ⟨howned, -, hlater, hnext, -⟩ := h.step hcheck hc hstep
    exact ⟨_, _, _, hstep, howned, hlater, hnext, rfl⟩
  | again hstep hrest =>
    obtain ⟨howned, -, hlater, hnext, -⟩ := h.step hcheck hc hstep
    exact ⟨_, _, _, hstep, howned, hlater, hnext, hrest⟩
  | descend hstep hstart hchild hrest =>
    obtain ⟨howned, -, hlater, hnext, hdescend⟩ := h.step hcheck hc hstep
    obtain ⟨rfl, hunder⟩ := hdescend _ _ _ _ rfl hstart
    have hdone := hunder.finished hcheck hc hchild
    exact ⟨_, _, _, hstep, howned, hlater, hnext, _, _, hstart, hunder, hchild,
      hnext.later hdone.later hdone.coherent hdone.touches.grows, hrest⟩

end Underway

end SexprAsm
