import SexprAsm.Proofs.Generation.Survival

/-!
# Instructions that no one will change

Of the code that is there, a run changes only the targets of jumps that wait for theirs. Such a
jump is kept by a unit of the stack, or by an entry point until a block of it begins
(`Generation.Unpatched`). A step adds to these only jumps that it has emitted itself. So an
instruction that does not wait is in the code for good (`Generation.Reaches.respects`): it stands in
the final code as it is.
-/

namespace SexprAsm

open Generation Workspace

/-- The jumps that an entry point keeps until a block begins. -/
def EntryPoint.jumps (entry : EntryPoint) : List InstructionId :=
  entry.landingPoints ++ entry.chain.toList

/-- The jump is kept by an entry point. -/
def Workspace.Awaits (w : Workspace) (k : InstructionId) : Prop :=
  ∃ label entry, w.entryPoints.get? label = some entry ∧ k ∈ entry.jumps

/-- The jump is kept by a unit of the stack, or by an entry point. -/
def Generation.Unpatched (stack : List WorkUnit) (w : Workspace) (k : InstructionId) : Prop :=
  (∃ u ∈ stack, k ∈ u.task.jumps) ∨ w.Awaits k

section EntryPoints

variable {entry : EntryPoint} {jump k : InstructionId} {start : JumpTarget}

theorem EntryPoint.mem_jumps_of_awaited (h : k ∈ entry.awaited) : k ∈ entry.jumps := by
  unfold awaited at h
  split at h
  · exact List.mem_append_left _ h
  · exact List.mem_append_right _ h

theorem EntryPoint.jumps_called (h : k ∈ (entry.called jump).jumps) :
    k ∈ entry.jumps ∨ k = jump := by
  unfold called at h
  split at h
  · exact Or.inl h
  · simp only [jumps, List.mem_append, List.mem_singleton] at h ⊢
    tauto

theorem EntryPoint.jumps_begun (h : k ∈ (entry.begun start).jumps) : k ∈ entry.jumps := by
  unfold begun at h
  split at h
  · exact List.mem_append_right _ h
  · simp only [jumps, Option.toList_none, List.append_nil] at h
    exact List.mem_append_left _ h

theorem EntryPoint.jumps_ended (h : k ∈ (entry.ended jump).jumps) :
    k ∈ entry.jumps ∨ k = jump := by
  unfold ended at h
  split at h
  · exact Or.inl h
  · rcases List.mem_append.mp h with h | h
    · exact Or.inl (List.mem_append_left _ h)
    · exact Or.inr (Option.some.inj (Option.mem_toList.mp h)).symm

theorem Workspace.EntryChanged.awaits {w w' : Workspace} {label : String}
    {f : EntryPoint → EntryPoint} {P : Prop} (h : w.EntryChanged label f w')
    (hf : ∀ entry, k ∈ (f entry).jumps → k ∈ entry.jumps ∨ P) (hk : w'.Awaits k) :
    w.Awaits k ∨ P := by
  obtain ⟨other, entry, hentry, hmem⟩ := hk
  rw [h other] at hentry
  split at hentry
  next =>
    obtain ⟨before, hbefore, rfl⟩ := Option.map_eq_some_iff.mp hentry
    exact (hf before hmem).imp_left fun hmem => ⟨label, before, hbefore, hmem⟩
  next => exact Or.inl ⟨other, entry, hentry, hmem⟩

theorem Workspace.awaits_congr {w w' : Workspace} (h : w'.entryPoints = w.entryPoints) :
    w'.Awaits k ↔ w.Awaits k := by
  unfold Workspace.Awaits
  rw [h]

end EntryPoints

/-! ## What waits before and after

`Respects` composes, like all that is said of parts of steps: what waits afterwards has waited
before or is new, and what does not wait is left alone. -/

/-- Code that does not wait is left alone, and what waits afterwards has waited before or is new. -/
structure Respects (t : Tree) (owed : InstructionId → Prop) (w : Workspace)
    (owed' : InstructionId → Prop) (w' : Workspace) : Prop where
  vocabulary : Vocabulary (fun _ => True) t w'
  length_le : w.assembly.instructions.length ≤ w'.assembly.instructions.length
  code : ∀ k < w.assembly.instructions.length, ¬ owed k →
    w'.assembly.instructions[k]? = w.assembly.instructions[k]?
  owes : ∀ k, owed' k → owed k ∨
    w.assembly.instructions.length ≤ k ∧ k < w'.assembly.instructions.length
  laid : w.assembly.Laid → w'.assembly.Laid

namespace Respects

variable {t : Tree} {owed owed' owed'' others : InstructionId → Prop} {w w' w'' : Workspace}
  {jumps : List InstructionId} {k : InstructionId}

theorem refl (hw : Vocabulary (fun _ => True) t w) : Respects t owed w owed w :=
  ⟨hw, Nat.le_refl _, fun _ _ _ => rfl, fun _ hk => Or.inl hk, id⟩

theorem trans (h : Respects t owed w owed' w') (h' : Respects t owed' w' owed'' w'') :
    Respects t owed w owed'' w'' := by
  have hle := h.length_le
  have hle' := h'.length_le
  refine ⟨h'.vocabulary, hle.trans hle', fun k hk hnot => ?_, fun k hk => ?_, h'.laid ∘ h.laid⟩
  · have hnot' : ¬ owed' k := fun hk' =>
      (h.owes k hk').elim hnot fun hnew => Nat.not_lt.mpr hnew.1 hk
    rw [h'.code k (hk.trans_le hle) hnot', h.code k hk hnot]
  · rcases h'.owes k hk with hk | ⟨hnew, hlt⟩
    · exact (h.owes k hk).imp_right fun ⟨hnew, hlt⟩ => ⟨hnew, hlt.trans_le hle'⟩
    · exact Or.inr ⟨hle.trans hnew, hlt⟩

/-- What waits besides does so afterwards. -/
theorem beside (h : Respects t owed w owed' w') (others : InstructionId → Prop) :
    Respects t (fun k => owed k ∨ others k) w (fun k => owed' k ∨ others k) w' := by
  refine ⟨h.vocabulary, h.length_le, fun k hk hnot => h.code k hk fun hk' => hnot (Or.inl hk'),
    fun k hk => ?_, h.laid⟩
  rcases hk with hk | hk
  · exact (h.owes k hk).imp_left Or.inl
  · exact Or.inl (Or.inr hk)

theorem mono (h : Respects t owed w owed' w') (howed : ∀ k, owed k → owed'' k)
    (howed' : ∀ k, others k → owed' k) : Respects t owed'' w others w' :=
  ⟨h.vocabulary, h.length_le, fun k hk hnot => h.code k hk fun hk' => hnot (howed k hk'),
    fun k hk => (h.owes k (howed' k hk)).imp_left (howed k), h.laid⟩

/-- What does not wait will not wait later. -/
theorem not_owes (h : Respects t owed w owed' w') (hk : k < w.assembly.instructions.length)
    (hnot : ¬ owed k) : ¬ owed' k := by
  exact fun hk' => (h.owes k hk').elim hnot fun hnew => Nat.not_lt.mpr hnew.1 hk

/-- An instruction that does not wait stays as it is. -/
theorem get?_eq {i : Instruction} (h : Respects t owed w owed' w')
    (hi : w.assembly.instructions[k]? = some i) (hnot : ¬ owed k) :
    w'.assembly.instructions[k]? = some i := by
  rw [h.code k (List.getElem?_eq_some_iff.mp hi).1 hnot, hi]

/-- Only instructions that are there wait. -/
theorem bounded (h : Respects t owed w owed' w')
    (hw : ∀ k, owed k → k < w.assembly.instructions.length) :
    ∀ k, owed' k → k < w'.assembly.instructions.length := by
  intro k hk
  rcases h.owes k hk with hk | hk
  · exact (hw k hk).trans_le h.length_le
  · exact hk.2

end Respects

/-! ## Steps

A step patches only jumps that its unit keeps, or that an entry point keeps and a block takes up.
All jumps of the units below are left alone. -/

section Steps

variable {cfg : Setting} {t : Tree} {u u' : WorkUnit} {stack stack' rest : List WorkUnit}
  {w w' w'' : Workspace} {p : Progress} {jumps : List InstructionId} {k : InstructionId}

theorem Generation.unpatched_cons :
    Unpatched (u :: rest) w k ↔ k ∈ u.task.jumps ∨ Unpatched rest w k := by
  simp only [Unpatched, List.exists_mem_cons_iff, or_assoc]

theorem Generation.unpatched_singleton : Unpatched [u] w k ↔ k ∈ u.task.jumps ∨ w.Awaits k := by
  simp [Unpatched]

/-- Without changes to entry points, the same jumps wait below a unit. -/
theorem Generation.unpatched_congr (h : w'.entryPoints = w.entryPoints) :
    Unpatched stack w' k ↔ Unpatched stack w k :=
  or_congr_right (awaits_congr h)

/-- Work that does nothing to entry points, and patches only jumps of its own. -/
theorem Respects.ofGrows {P D : String → Prop} (hw : Vocabulary (fun _ => True) t w')
    (hgrows : Grows P D jumps w w') (hentries : w'.entryPoints = w.entryPoints)
    (hjumps : ∀ k ∈ u'.task.jumps, k ∈ jumps ∨
      w.assembly.instructions.length ≤ k ∧ k < w'.assembly.instructions.length) :
    Respects t (fun k => k ∈ jumps ∨ w.Awaits k) w (Unpatched [u'] w') w' := by
  refine ⟨hw, hgrows.touches.grows,
    fun k hk hnot => hgrows.touches.code k hk fun hmem => hnot (Or.inl hmem), fun k hk => ?_,
    hgrows.laid⟩
  rcases unpatched_singleton.mp hk with hk | hk
  · exact (hjumps k hk).imp_left Or.inl
  · exact Or.inl (Or.inr ((awaits_congr hentries).mp hk))

/-- Work on the entry point of a label that appends code and may leave a new jump waiting there. -/
theorem Respects.ofChanged {P D : String → Prop} {label : String} {f : EntryPoint → EntryPoint}
    {jump : InstructionId} (h : Extended P D t [] w w') (hchanged : w.EntryChanged label f w')
    (hf : ∀ entry k, k ∈ (f entry).jumps → k ∈ entry.jumps ∨ k = jump)
    (hjump : w.assembly.instructions.length ≤ jump ∧ jump < w'.assembly.instructions.length) :
    Respects t w.Awaits w w'.Awaits w' := by
  have hw' := h.vocabulary
  refine ⟨⟨hw'.sound, hw'.pooled, fun _ _ _ => trivial, fun _ _ => trivial, fun _ _ _ => trivial⟩,
    h.grows.touches.grows, fun k hk _ => h.grows.touches.code k hk List.not_mem_nil, fun k hk => ?_,
    h.grows.laid⟩
  rcases hchanged.awaits (hf · k) hk with hk | rfl
  · exact Or.inl hk
  · exact Or.inr hjump

variable (hw : Vocabulary (fun _ => True) t w)

include hw

theorem callEvent_respects {label : String} {target : Option String}
    (h : Yields (callEvent cfg label target) w () w') : Respects t w.Awaits w w'.Awaits w' := by
  obtain ⟨entry, -, hextended, hjump, hchanged⟩ := callEvent_spec (D := fun _ => True) hw
    ⟨fun _ _ _ => trivial, trivial⟩ (fun _ _ => trivial) h
  exact .ofChanged hextended hchanged (fun _ _ => EntryPoint.jumps_called)
    ⟨Nat.le_add_right _ _, (List.getElem?_eq_some_iff.mp hjump).1⟩

theorem beginBlock_respects {label : String} (h : Yields (beginBlock label) w () w') :
    Respects t w.Awaits w w'.Awaits w' := by
  obtain ⟨entry, hentry, hbegins, hw'⟩ := beginBlock_spec hw h
  refine ⟨hw', hbegins.touches.grows, fun k hk hnot => hbegins.touches.code k hk fun hmem => ?_,
    fun k hk => ?_, hbegins.laid⟩
  · exact hnot ⟨label, entry, hentry, EntryPoint.mem_jumps_of_awaited hmem⟩
  · exact Or.inl ((hbegins.changed.awaits (P := False)
      (fun _ hmem => Or.inl (EntryPoint.jumps_begun hmem)) hk).resolve_right id)

theorem endBlock_respects {label : String} (h : Yields (endBlock cfg label) w () w') :
    Respects t w.Awaits w w'.Awaits w' := by
  obtain ⟨entry, -, hextended, hcode, hchanged⟩ := endBlock_spec (D := fun _ => True) hw
    (fun _ _ => trivial) h
  refine .ofChanged hextended hchanged (fun _ _ => EntryPoint.jumps_ended) ⟨Nat.le_refl _, ?_⟩
  rw [hcode, List.length_append]
  exact Nat.lt_succ_self _

/-- A block that is called in place leaves the jump past it waiting in its unit. -/
theorem stepEvent_respects {n : Nat} {skip : Option InstructionId}
    (h : Yields (stepEvent cfg t n u skip) w (p, u') w') (htask : u.task = .event skip) :
    Respects t (Unpatched [u] w) w (Unpatched [u'] w') w' := by
  obtain ⟨first, label, -, -, ⟨-, skip', body, w₁, hcall, hbegin, -, rfl, rfl⟩ |
    ⟨-, rfl, rfl, w₁, hend, hpatch⟩⟩ := stepEvent_cases h
  · have hcall' : Respects t w.Awaits w (fun k => w₁.Awaits k ∨ k ∈ skip'.toList) w₁ := by
      rcases hcall with ⟨-, rfl, rfl⟩ | ⟨target, jump, w₀, -, rfl, hcall, hjump⟩
      · exact (Respects.refl hw).mono (fun _ hk => hk) fun k hk => hk.resolve_right List.not_mem_nil
      · have hcalled := callEvent_respects hw hcall
        obtain ⟨rfl, happends⟩ := Appends.jump hjump
        refine hcalled.trans ⟨hcalled.vocabulary.appends happends,
          happends.length_eq ▸ Nat.le_add_right _ _, fun k hk _ => ?_, fun k hk => ?_,
          happends.emits.laid⟩
        · rw [happends.code_eq, List.getElem?_append_left hk]
        · rcases hk with hk | hk
          · exact Or.inl ((awaits_congr happends.entryPoints).mp hk)
          · obtain rfl := Option.some.inj (Option.mem_toList.mp hk)
            exact Or.inr ⟨Nat.le_refl _, happends.length_eq ▸ Nat.lt_succ_self _⟩
    refine (hcall'.trans ((beginBlock_respects hcall'.vocabulary hbegin).beside _)).mono
      (fun k hk => Or.inr hk) fun k hk => ?_
    exact (unpatched_singleton.mp hk).symm
  · have hended := (endBlock_respects hw hend).beside (· ∈ skip.toList)
    have hretargets := patchAll_spec hpatch
    have hpatched :
        Respects t (fun k => w₁.Awaits k ∨ k ∈ skip.toList) w₁ (Unpatched [u'] w') w' := by
      refine ⟨hended.vocabulary.retargets hretargets, hretargets.length.ge,
        fun k hk hnot => hretargets.touches.code k hk fun hmem => hnot (Or.inr hmem),
        fun k hk => Or.inl ?_, hretargets.laid⟩
      rw [unpatched_singleton, htask] at hk
      exact hk.symm.imp_left (awaits_congr hretargets.entryPoints).mp
    refine (hended.trans hpatched).mono (fun k hk => ?_) fun _ hk => hk
    rw [unpatched_singleton, htask]
    exact hk.symm

/-- A step of any unit changes only jumps that wait, its own or those of entry points. -/
theorem step_respects (h : Yields (step cfg t u) w (p, u') w') :
    Respects t (Unpatched [u] w) w (Unpatched [u'] w') w' := by
  cases hlocal : u.task.isLocal with
  | true =>
    have hconfined :=
      (step_footprint (D := fun _ => True) hw (fun _ _ => trivial) hlocal h).confined
    exact (Respects.ofGrows hconfined.vocabulary hconfined.grows hconfined.entryPoints
      hconfined.jumps).mono (fun k hk => unpatched_singleton.mpr hk) fun k hk => hk
  | false =>
    obtain ⟨node, target, n, temps, task⟩ := u
    cases task with
    | event skip =>
      refine (stepEvent_respects hw h rfl).mono (fun k hk => ?_) fun _ hk => hk
      rw [unpatched_singleton] at hk ⊢
      exact hk
    | callEvent =>
      obtain ⟨_, -, hcall, rfl, rfl⟩ := step_callEvent_cases h
      refine (callEvent_respects hw hcall).mono (fun k hk => unpatched_singleton.mpr (Or.inr hk))
        fun k hk => (unpatched_singleton.mp hk).resolve_left List.not_mem_nil
    | inlineAsm =>
      obtain ⟨a, hinline, rfl, rfl, rfl⟩ := step_inlineAsm_cases h
      obtain ⟨code, hemits, -⟩ := inlineInstructions_emits hinline
      have happends := Appends.ofEmits hemits
      refine ⟨hw.appends happends, happends.length_eq ▸ Nat.le_add_right _ _, fun k hk _ => ?_,
        fun k hk => Or.inl ?_, hemits.laid⟩
      · rw [happends.code_eq, List.getElem?_append_left hk]
      · rw [unpatched_singleton] at hk ⊢
        exact hk
    | _ => cases hlocal

end Steps

/-! ## Runs -/

section Runs

variable {cfg : Setting} {t : Tree} {u u' : WorkUnit} {stack stack' stack'' rest : List WorkUnit}
  {w w' w'' : Workspace} {k : InstructionId} {i : Instruction}

theorem Generation.Reaches.trans (h : Reaches cfg t stack w stack' w')
    (h' : Reaches cfg t stack' w' stack'' w'') : Reaches cfg t stack w stack'' w'' := by
  induction h with
  | refl => exact h'
  | head hmove _ ih => exact .head hmove (ih h')

/-- A unit that comes to its end does so on top of any stack. -/
theorem Generation.Finishes.reaches (h : Finishes cfg t u w w') (rest : List WorkUnit) :
    Reaches cfg t (u :: rest) w rest w' := by
  induction h generalizing rest with
  | done hstep => exact .head (.done hstep) (.refl _ _)
  | again hstep _ ih => exact .head (.again hstep) (ih rest)
  | descend hstep hstart _ _ ihchild ihrest =>
    exact .head (.descend hstep hstart) ((ihchild _).trans (ihrest rest))

/-- The first step of a unit that comes to its end, and what follows it. -/
theorem Generation.Finishes.step_cases (h : Finishes cfg t u w w') :
    ∃ p u' w₁, Yields (step cfg t u) w (p, u') w₁ ∧
      (p = .done ∧ w₁ = w' ∨ p = .again ∧ Finishes cfg t u' w₁ w' ∨
        ∃ child target next w₂, p = .descend child target ∧
          Yields (start t child target) w₁ next w₁ ∧ Finishes cfg t next w₁ w₂ ∧
          Finishes cfg t u' w₂ w') := by
  cases h with
  | done hstep => exact ⟨_, _, _, hstep, Or.inl ⟨rfl, rfl⟩⟩
  | again hstep hrest => exact ⟨_, _, _, hstep, Or.inr (Or.inl ⟨rfl, hrest⟩)⟩
  | descend hstep hstart hchild hrest =>
    obtain ⟨rfl, -⟩ := start_cases hstart
    exact ⟨_, _, _, hstep, Or.inr (Or.inr ⟨_, _, _, _, rfl, hstart, hchild, hrest⟩)⟩

/-- A unit starts with no jump that waits. -/
theorem Generation.unpatched_start {child : NodeId} {target : Option String}
    (h : Yields (start t child target) w u w') :
    Unpatched (u :: rest) w' k ↔ Unpatched rest w' k := by
  obtain ⟨-, construct, -, rfl⟩ := start_cases h
  have hnone : (Task.ofConstruct construct).jumps = [] := by cases construct <;> rfl
  simp [unpatched_cons, hnone]

/-- The units below the top of the stack wait for their turn, with their jumps. -/
theorem Respects.onStack (h : Respects t (Unpatched [u] w) w (Unpatched [u'] w') w')
    (rest : List WorkUnit) :
    Respects t (Unpatched (u :: rest) w) w (Unpatched (u' :: rest) w') w' := by
  refine (h.beside fun k => ∃ v ∈ rest, k ∈ v.task.jumps).mono (fun k hk => ?_) fun k hk => ?_
  · rcases hk with hk | hk
    · exact unpatched_cons.mpr ((unpatched_singleton.mp hk).imp_right Or.inr)
    · exact unpatched_cons.mpr (Or.inr (Or.inl hk))
  · rcases unpatched_cons.mp hk with hk | hk | hk
    · exact Or.inl (unpatched_singleton.mpr (Or.inl hk))
    · exact Or.inr hk
    · exact Or.inl (unpatched_singleton.mpr (Or.inr hk))

theorem Generation.Move.respects (hw : Vocabulary (fun _ => True) t w)
    (h : Move cfg t stack w stack' w') :
    Respects t (Unpatched stack w) w (Unpatched stack' w') w' := by
  cases h with
  | done hstep =>
    exact ((step_respects hw hstep).onStack _).mono (fun _ hk => hk)
      fun _ hk => unpatched_cons.mpr (Or.inr hk)
  | again hstep => exact (step_respects hw hstep).onStack _
  | descend hstep hstart =>
    have hstep' := (step_respects hw hstep).onStack
    obtain ⟨rfl, -⟩ := start_cases hstart
    exact (hstep' _).mono (fun _ hk => hk) fun _ hk => (unpatched_start hstart).mp hk

theorem Generation.Reaches.respects (h : Reaches cfg t stack w stack' w')
    (hw : Vocabulary (fun _ => True) t w) :
    Respects t (Unpatched stack w) w (Unpatched stack' w') w' := by
  induction h with
  | refl => exact .refl hw
  | head hmove _ ih => exact (hmove.respects hw).trans (ih (hmove.respects hw).vocabulary)

/-- At the beginning nothing waits. -/
theorem Resolution.Prepared.not_unpatched {before : Workspace} {first : WorkUnit}
    (h : Resolution.Prepared cfg t before)
    (hstart : Yields (start t Tree.root none) before first w) :
    ¬ Unpatched [first] before k := by
  intro hwaits
  obtain ⟨rfl, -⟩ := start_cases hstart
  obtain ⟨label, entry, hentry, hmem⟩ := ((unpatched_start hstart).mp hwaits).resolve_left (by simp)
  have hdeclared := h.unstarted.entryPoints label entry hentry
  simp [EntryPoint.jumps, hdeclared.landingPoints, hdeclared.chain] at hmem

end Runs

end SexprAsm
