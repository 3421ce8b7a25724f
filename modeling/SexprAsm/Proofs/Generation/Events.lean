import SexprAsm.Proofs.Generation.Footprint

/-!
# What the parts of events leave behind

Three things happen around the routine of an event: it is called, one of its blocks begins, and one
ends. Each appends some code and changes the entry point of the label. A call that comes before the
first block leaves its jump waiting among the landing points; the first block gives these jumps
their target and starts the routine; a block that is not the last one leaves its own jump waiting in
the chain, and the next block gives it its target.
-/

namespace SexprAsm

open Generation Workspace

/-- A jump of an entry point goes there once the routine has begun, and waits until then. -/
def EntryPoint.landing (entry : EntryPoint) : JumpTarget := entry.bodyStart.getD .unresolved

/-- The entry point after a call whose jump is the instruction `jump`. -/
def EntryPoint.called (jump : InstructionId) (entry : EntryPoint) : EntryPoint :=
  if entry.bodyStart.isSome then entry
  else { entry with landingPoints := entry.landingPoints ++ [jump] }

/-- The entry point after a block of it has begun. -/
def EntryPoint.begun (start : JumpTarget) (entry : EntryPoint) : EntryPoint :=
  if entry.compiled = 0 then { entry with bodyStart := some start, landingPoints := [] }
  else { entry with chain := none }

/-- The jumps that get their target where a block begins. -/
def EntryPoint.awaited (entry : EntryPoint) : List InstructionId :=
  if entry.compiled = 0 then entry.landingPoints else entry.chain.toList

/-- The entry point after a block of it has ended with the instruction `jump`. -/
def EntryPoint.ended (jump : InstructionId) (entry : EntryPoint) : EntryPoint :=
  if entry.blocks ≤ entry.compiled + 1 then { entry with compiled := entry.compiled + 1 }
  else { entry with compiled := entry.compiled + 1, chain := some jump }

/-- The instruction that ends a block. -/
def EntryPoint.ending (entry : EntryPoint) : Instruction :=
  if entry.blocks ≤ entry.compiled + 1 then .jumpIndirect entry.returnPointer
  else .jump .unresolved

namespace EntryPoint

variable (entry : EntryPoint) (start : JumpTarget) (jump : InstructionId)

@[simp]
theorem begun_compiled : (entry.begun start).compiled = entry.compiled := by
  unfold begun
  split <;> rfl

@[simp]
theorem begun_blocks : (entry.begun start).blocks = entry.blocks := by
  unfold begun
  split <;> rfl

@[simp]
theorem ended_compiled : (entry.ended jump).compiled = entry.compiled + 1 := by
  unfold ended
  split <;> rfl

@[simp]
theorem ended_blocks : (entry.ended jump).blocks = entry.blocks := by
  unfold ended
  split <;> rfl

@[simp]
theorem ended_returnPointer : (entry.ended jump).returnPointer = entry.returnPointer := by
  unfold ended
  split <;> rfl

@[simp]
theorem ended_bodyStart : (entry.ended jump).bodyStart = entry.bodyStart := by
  unfold ended
  split <;> rfl

@[simp]
theorem ended_landingPoints : (entry.ended jump).landingPoints = entry.landingPoints := by
  unfold ended
  split <;> rfl

theorem ended_chain : (entry.ended jump).chain =
    if entry.blocks ≤ entry.compiled + 1 then entry.chain else some jump := by
  unfold ended
  split <;> rfl

end EntryPoint

/-- The entry points with the one of a label changed. -/
def Workspace.EntryChanged (w : Workspace) (label : String) (f : EntryPoint → EntryPoint)
    (w' : Workspace) : Prop :=
  ∀ other, w'.entryPoints.get? other =
    if other = label then (w.entryPoints.get? label).map f else w.entryPoints.get? other

/-- New code that names allowed slots only, with the same temporaries in use. -/
structure Extended (P D : String → Prop) (t : Tree) (jumps : List InstructionId)
    (w w' : Workspace) : Prop where
  grows : Grows P D jumps w w'
  vocabulary : Vocabulary P t w'
  rented : w'.rented = w.rented
  pools : w'.pools = w.pools

section

variable {P D : String → Prop} {cfg : Setting} {t : Tree} {jumps jumps' : List InstructionId}
  {w w' w'' : Workspace} {label : String} {f g : EntryPoint → EntryPoint}

namespace Extended

theorem trans (h : Extended P D t jumps w w') (h' : Extended P D t jumps' w' w'')
    (hjumps : ∀ k ∈ jumps', k ∈ jumps ∨ w.assembly.instructions.length ≤ k) :
    Extended P D t jumps w w'' :=
  ⟨h.grows.trans h'.grows hjumps, h'.vocabulary, h'.rented.trans h.rented,
    h'.pools.trans h.pools⟩

theorem ofAppends {code : List Instruction} (hw : Vocabulary P t w) (h : Appends w code w')
    (hcode : ∀ i ∈ code, i.Within P D) : Extended P D t jumps w w' :=
  ⟨.ofAppends h hcode, hw.appends h, h.rented, h.pools⟩

theorem ofRetargets {target : JumpTarget} (hw : Vocabulary P t w)
    (h : Retargets jumps target w w') : Extended P D t jumps w w' :=
  ⟨.ofRetargets h, hw.retargets h, h.rented, h.pools⟩

theorem modifyEntry (hw : Vocabulary P t w)
    (h : Yields (Generation.modifyEntry label f) w () w') : Extended P D t jumps w w' := by
  obtain rfl := Yields.modify_iff.mp h
  exact ⟨.besides rfl rfl, ⟨hw.sound, ⟨hw.pooled.nodup, hw.pooled.free, hw.pooled.rented⟩, hw.named,
    hw.constant, hw.free⟩, rfl, rfl⟩

end Extended

theorem Workspace.EntryChanged.ofModify
    (h : Yields (Generation.modifyEntry label f) w () w') : w.EntryChanged label f w' := by
  obtain rfl := Yields.modify_iff.mp h
  exact fun other => OrderedMap.get?_modify

theorem Workspace.EntryChanged.ofSame (h : w.EntryChanged label f w')
    (hsame : w''.entryPoints = w'.entryPoints) : w.EntryChanged label f w'' := by
  intro other
  rw [hsame]
  exact h other

/-- Only what a change does to the entry point that is there matters. -/
theorem Workspace.EntryChanged.congr {entry : EntryPoint} (h : w.EntryChanged label f w')
    (hentry : w.entryPoints.get? label = some entry) (hsame : g entry = f entry) :
    w.EntryChanged label g w' := by
  intro other
  rw [h other, hentry, Option.map_some, Option.map_some, hsame]

theorem Workspace.EntryChanged.trans (h : w.EntryChanged label f w')
    (h' : w'.EntryChanged label g w'') : w.EntryChanged label (g ∘ f) w'' := by
  intro other
  rw [h' other, h label, h other]
  by_cases hother : other = label
  · simp [hother]
  · simp [hother]

/-- What is found after the change is the changed entry point of the label, or is there already. -/
theorem Workspace.EntryChanged.get?_cases {entry found : EntryPoint} {other : String}
    (h : w.EntryChanged label f w') (hentry : w.entryPoints.get? label = some entry)
    (hfound : w'.entryPoints.get? other = some found) :
    other = label ∧ found = f entry ∨ other ≠ label ∧ w.entryPoints.get? other = some found := by
  rw [h other] at hfound
  split at hfound
  next heq =>
    rw [hentry, Option.map_some] at hfound
    exact Or.inl ⟨heq, (Option.some.inj hfound).symm⟩
  next hne => exact Or.inr ⟨hne, hfound⟩

/-- No label loses its entry point. -/
theorem Workspace.EntryChanged.get?_ne_none {entry : EntryPoint} {other : String}
    (h : w.EntryChanged label f w') (hentry : w.entryPoints.get? label = some entry)
    (hother : other ≠ label → w.entryPoints.get? other ≠ none) :
    w'.entryPoints.get? other ≠ none := by
  rw [h other]
  split
  next => simp [hentry]
  next hne => exact hother hne

theorem Workspace.EntryChanged.get? {entry : EntryPoint} (h : w.EntryChanged label f w')
    (hentry : w.entryPoints.get? label = some entry) :
    w'.entryPoints.get? label = some (f entry) := by
  rw [h label, if_pos rfl, hentry, Option.map_some]

/-- The names that the code of an event call needs beside those of every other code. -/
structure Vocabulary.ForEvents (P : String → Prop) (w : Workspace) : Prop where
  pointers : ∀ label entry, w.entryPoints.get? label = some entry → P entry.returnPointer
  result : P Catalog.returnValue

/-- A call of an event stores the address to return to and jumps; the jump is the fourth
instruction. -/
theorem callEvent_spec {target : Option String} (hw : Vocabulary P t w)
    (hevents : Vocabulary.ForEvents P w) (htarget : ∀ slot, target = some slot → P slot)
    (h : Yields (callEvent cfg label target) w () w') :
    ∃ entry, w.entryPoints.get? label = some entry ∧ Extended P D t [] w w' ∧
      w'.assembly.instructions[w.assembly.instructions.length + 3]? = some (.jump entry.landing) ∧
      w.EntryChanged label (·.called (w.assembly.instructions.length + 3)) w' := by
  obtain ⟨entry, id, w₁, jump, w₂, w₃, id', w₄, hentry, hoffset, hjump, hcopy, hresult⟩ :=
    callEvent_cases h
  have hpointer := hevents.pointers label entry hentry
  refine ⟨entry, hentry, ?_⟩
  -- The address to return to.
  obtain ⟨a, hstore, rfl⟩ := Compile.emit_iff.mp hoffset
  obtain ⟨-, slot, hin, hemits, -⟩ := Emit.copyOffset_spec hstore hw.sound
  have happends₁ := Appends.ofEmits hemits
  have h₁ : Extended P D t [] w { w with assembly := a } :=
    .ofAppends hw happends₁ (hw.copy hin (by rintro _ ⟨⟩) hpointer)
  -- The jump, which waits if the routine has not begun.
  have hjump' : Extended P D t [] { w with assembly := a } w₃ ∧
      w₃.assembly.instructions = a.instructions ++ [.jump entry.landing] ∧
      w.EntryChanged label (·.called (w.assembly.instructions.length + 3)) w₃ := by
    have hlength : a.instructions.length = w.assembly.instructions.length + 3 :=
      happends₁.length_eq
    rcases hjump with ⟨start, hstart, hjump, rfl⟩ | ⟨hstart, hjump, hmodify⟩
    · obtain ⟨-, happends₂⟩ := Appends.jump hjump
      refine ⟨.ofAppends h₁.vocabulary happends₂ (List.forall_mem_singleton.mpr trivial), ?_, ?_⟩
      · rw [happends₂.code_eq, EntryPoint.landing, hstart]
        rfl
      · intro other
        rw [happends₂.entryPoints]
        split
        next hother =>
          rw [hother, hentry, Option.map_some, EntryPoint.called, hstart]
          rfl
        next => rfl
    · obtain ⟨rfl, happends₂⟩ := Appends.jump hjump
      have h₂ : Extended P D t [] { w with assembly := a } w₂ :=
        .ofAppends h₁.vocabulary happends₂ (List.forall_mem_singleton.mpr trivial)
      have h₃ : Extended P D t [] w₂ w₃ := .modifyEntry h₂.vocabulary hmodify
      refine ⟨h₂.trans h₃ (by simp), ?_, ?_⟩
      · obtain rfl := Yields.modify_iff.mp hmodify
        rw [EntryPoint.landing, hstart]
        exact happends₂.code_eq
      · intro other
        rw [Workspace.EntryChanged.ofModify hmodify other, happends₂.entryPoints]
        split
        next =>
          rw [hentry, Option.map_some, Option.map_some, EntryPoint.called, hstart, ← hlength]
          rfl
        next => rfl
  obtain ⟨h₃, hcode₃, hchanged⟩ := hjump'
  -- The address that stands for the host, and the result.
  obtain ⟨slot', hin', happends₄⟩ := Appends.copy h₃.vocabulary.sound hcopy
  have h₄ : Extended P D t [] w₃ w₄ :=
    .ofAppends h₃.vocabulary happends₄ (h₃.vocabulary.copy hin' (by rintro _ ⟨⟩) hpointer)
  have h₅ : Extended P D t [] w₄ w' ∧ w'.entryPoints = w₄.entryPoints := by
    rcases hresult with ⟨-, rfl⟩ | ⟨slot, last, rfl, hresult⟩
    · exact ⟨⟨.refl _, h₄.vocabulary, rfl, rfl⟩, rfl⟩
    · obtain ⟨slot'', hin'', happends₅⟩ := Appends.copy h₄.vocabulary.sound hresult
      refine ⟨.ofAppends h₄.vocabulary happends₅ (h₄.vocabulary.copy hin'' ?_ (htarget slot rfl)),
        happends₅.entryPoints⟩
      exact fun name hname => Option.some.inj hname ▸ hevents.result
  obtain ⟨h₅, hentries₅⟩ := h₅
  have h₃₅ := h₄.trans h₅ (by simp)
  refine ⟨(h₁.trans h₃ (by simp)).trans h₃₅ (by simp), ?_,
    hchanged.ofSame (hentries₅.trans happends₄.entryPoints)⟩
  have hlength : a.instructions.length = w.assembly.instructions.length + 3 := happends₁.length_eq
  rw [h₃₅.grows.touches.code _ ?_ List.not_mem_nil, hcode₃, ← hlength]
  · simp
  · rw [hcode₃, List.length_append, hlength]
    exact Nat.lt_succ_self _

/-- What the beginning of a block does: the jumps that have waited for it get the end of the code as
their target, and the first block of a label starts its entry point there. -/
structure Begins (label : String) (entry : EntryPoint) (w w' : Workspace) : Prop where
  later : w.Later w'
  touches : Touches entry.awaited w w'
  length : w'.assembly.instructions.length = w.assembly.instructions.length
  targets : ∀ k ∈ entry.awaited, ∀ i, w.assembly.instructions[k]? = some i →
    ∃ i', i.retarget? (.after w.assembly.last?) = some i' ∧ w'.assembly.instructions[k]? = some i'
  marks : w'.assembly.marks = if entry.compiled = 0 then w.assembly.marks.dropLast ++ [some label]
    else w.assembly.marks
  rented : w'.rented = w.rented
  pools : w'.pools = w.pools
  changed : w.EntryChanged label (·.begun (.after w.assembly.last?)) w'
  laid : w.assembly.Laid → w'.assembly.Laid

theorem beginBlock_spec (hw : Vocabulary P t w) (h : Yields (beginBlock label) w () w') :
    ∃ entry, w.entryPoints.get? label = some entry ∧ Begins label entry w w' ∧
      Vocabulary P t w' := by
  obtain ⟨entry, w₁, w₂, hentry, hcases⟩ := beginBlock_cases h
  -- Before the jumps get their target, only the entry point and the waiting label have changed.
  have hmiddle : ∃ pending entries, w₂ = { w with
        assembly := { w.assembly with pendingLabel := pending }, entryPoints := entries } ∧
      Retargets entry.awaited (.after w.assembly.last?) w₂ w' ∧
      w₂.assembly.marks = (if entry.compiled = 0 then w.assembly.marks.dropLast ++ [some label]
        else w.assembly.marks) ∧
      w.EntryChanged label (·.begun (.after w.assembly.last?)) w' := by
    rcases hcases with ⟨hzero, hmodify, hlabel, hpatch⟩ | ⟨hzero, hmodify, rfl, hpatch⟩
    · have hretargets := patchAll_spec hpatch
      have hchanged := Workspace.EntryChanged.ofModify hmodify
      obtain ⟨a, hpending, rfl⟩ := Compile.emit_iff.mp hlabel
      obtain rfl := Yields.modify_iff.mp hpending
      obtain rfl := Yields.modify_iff.mp hmodify
      rw [EntryPoint.awaited, if_pos hzero, if_pos hzero]
      refine ⟨some label, _, rfl, hretargets, ?_,
        (hchanged.ofSame hretargets.entryPoints).congr hentry ?_⟩
      · rw [Assembly.marks, Assembly.marks, List.dropLast_concat]
      · rw [EntryPoint.begun, if_pos hzero]
    · have hretargets := patchAll_spec hpatch
      have hchanged := Workspace.EntryChanged.ofModify hmodify
      obtain rfl := Yields.modify_iff.mp hmodify
      rw [EntryPoint.awaited, if_neg hzero, if_neg hzero]
      refine ⟨w.assembly.pendingLabel, _, rfl, hretargets, rfl,
        (hchanged.ofSame hretargets.entryPoints).congr hentry ?_⟩
      rw [EntryPoint.begun, if_neg hzero]
  obtain ⟨pending, entries, rfl, hretargets, hmarks, hchanged⟩ := hmiddle
  refine ⟨entry, hentry, ⟨⟨?_, hretargets.follows, hretargets.findings⟩,
    ⟨hretargets.touches.grows, hretargets.touches.code⟩, hretargets.length, hretargets.targets,
    hretargets.marks.trans hmarks, hretargets.rented, hretargets.pools, hchanged,
    hretargets.laid⟩, Vocabulary.retargets ?_ hretargets⟩
  · rw [hretargets.heap]
    exact .refl _
  · exact ⟨hw.sound, ⟨hw.pooled.nodup, hw.pooled.free, hw.pooled.rented⟩, hw.named, hw.constant,
      hw.free⟩

/-- A block ends with one instruction: it returns to the caller if it is the last one. -/
theorem endBlock_spec (hw : Vocabulary P t w)
    (hpointers : ∀ entry, w.entryPoints.get? label = some entry → D entry.returnPointer)
    (h : Yields (endBlock cfg label) w () w') :
    ∃ entry, w.entryPoints.get? label = some entry ∧ Extended P D t [] w w' ∧
      w'.assembly.instructions = w.assembly.instructions ++ [entry.ending] ∧
      w.EntryChanged label (·.ended w.assembly.instructions.length) w' := by
  obtain ⟨entry, w₁, hentry, hmodify, hends⟩ := endBlock_cases h
  have h₁ : Extended P D t [] w w₁ := .modifyEntry hw hmodify
  have hchanged := Workspace.EntryChanged.ofModify hmodify
  have hassembly : w₁.assembly = w.assembly := by
    obtain rfl := Yields.modify_iff.mp hmodify
    rfl
  refine ⟨entry, hentry, ?_⟩
  rcases hends with ⟨hle, id, hjump⟩ | ⟨hlt, jump, w₂, hjump, hchain⟩
  · obtain ⟨a, hindirect, rfl⟩ := Compile.emit_iff.mp hjump
    have happends := Appends.ofEmits (Emit.jumpIndirect_spec hindirect).1
    have h₂ : Extended P D t [] w₁ { w₁ with assembly := a } :=
      .ofAppends h₁.vocabulary happends (List.forall_mem_singleton.mpr (hpointers entry hentry))
    refine ⟨h₁.trans h₂ (by simp), ?_, ?_⟩
    · rw [happends.code_eq, hassembly, EntryPoint.ending, if_pos hle]
    · refine (hchanged.ofSame happends.entryPoints).congr hentry ?_
      rw [EntryPoint.ended, if_pos hle]
  · obtain ⟨rfl, happends⟩ := Appends.jump hjump
    have h₂ : Extended P D t [] w₁ w₂ :=
      .ofAppends h₁.vocabulary happends (List.forall_mem_singleton.mpr trivial)
    have h₃ : Extended P D t [] w₂ w' := .modifyEntry h₂.vocabulary hchain
    refine ⟨(h₁.trans h₂ (by simp)).trans h₃ (by simp), ?_, ?_⟩
    · obtain rfl := Yields.modify_iff.mp hchain
      rw [EntryPoint.ending, if_neg (Nat.not_le.mpr hlt), ← hassembly]
      exact happends.code_eq
    · refine ((hchanged.ofSame happends.entryPoints).trans (.ofModify hchain)).congr hentry ?_
      rw [EntryPoint.ended, if_neg (Nat.not_le.mpr hlt), hassembly]
      rfl

end

end SexprAsm
