import SexprAsm.Proofs.Generation.Events
import SexprAsm.Proofs.Generation.Run
import SexprAsm.Proofs.Program

/-!
# Temporaries survive the blocks compiled over them

A temporary that a unit on the stack holds when a block of an event begins is named by no
instruction of that block, unless the source itself names it. So the code of a block that is called
in place, because its value is used, leaves alone what the units below it have computed so far.

The argument is that of `Footprint`, for steps of every kind (`Spares`): new code names what
its units know of, what the tree names, and temporaries that were free. A temporary that is held
below a unit is none of these as long as the unit runs.

Nothing of this kind holds of a block that has been compiled elsewhere: the two may well have rented
the same temporary, one after the other. A call runs all blocks of its label, so what the caller has
computed is sure to be there after it only where the label has no block but the one compiled in
place.
-/

namespace SexprAsm

open Generation Workspace Resolution

/-! ## Inline assembly

Inline assembly is written by hand, so it is taken apart here only as far as names go: whatever
slot it names is the text of a node of the tree. -/

/-- What inline assembly can say: it names what the tree names, and jumps to addresses. -/
def Instruction.Inline (t : Tree) : Instruction → Prop
  | .push name | .jumpIndirect name => ∃ id, (t.tag id).text? = some name
  | .jump target | .jumpIfFalse target => ∃ address, target = .address address
  | _ => True

theorem Instruction.Inline.within {P D : String → Prop} {t : Tree} {i : Instruction}
    (h : i.Inline t) (hnamed : ∀ id name, (t.tag id).text? = some name → P name ∧ D name) :
    i.Within P D := by
  cases i with
  | push name =>
    obtain ⟨id, hname⟩ := h
    exact (hnamed id name hname).1
  | jumpIndirect name =>
    obtain ⟨id, hname⟩ := h
    exact (hnamed id name hname).2
  | _ => trivial

section Inline

variable {cfg : Setting} {t : Tree} {a a' : Assembly}

/-- What is computed outside the emitter either stops it or leaves it as it is. -/
theorem ofExcept_bind {α : Type} {outcome : Except BuildError α} {next : α → Emit Unit}
    (h : Yields (Generation.ofExcept outcome >>= next) a () a') :
    ∃ r, outcome = .ok r ∧ Yields (next r) a () a' := by
  cases outcome with
  | error e => simp [Generation.ofExcept] at h
  | ok r =>
    rw [Generation.ofExcept, pure_bind] at h
    exact ⟨r, rfl, h⟩

/-- A name that inline assembly uses is the text of a node. -/
theorem inlineName_ok {id : NodeId} {mnemonic name : String}
    (h : inlineName t mnemonic id = .ok name) : ∃ child, (t.tag child).text? = some name := by
  unfold inlineName at h
  split at h
  next found hfound =>
    obtain rfl := Except.ok.inj h
    obtain ⟨child, -, htext⟩ := Option.bind_eq_some_iff.mp hfound
    exact ⟨child, htext⟩
  next => cases h

theorem inlineInstruction_emits {id : NodeId} (h : Yields (inlineInstruction cfg t id) a () a') :
    ∃ code, Emits a code a' ∧ ∀ i ∈ code, i.Inline t := by
  have hplain : ∀ {i : Instruction}, Yields (do let _ ← Emit.instruction i) a () a' →
      i.Inline t → ∃ code, Emits a code a' ∧ ∀ i ∈ code, i.Inline t := by
    intro i h hi
    simp only [Yields.bind_iff, Yields.pure_iff] at h
    obtain ⟨_, _, hi', -, rfl⟩ := h
    exact ⟨_, (Emit.instruction_spec hi').2, List.forall_mem_singleton.mpr hi⟩
  unfold inlineInstruction at h
  split at h
  next => simp at h
  next mnemonic _ =>
    -- One case for each mnemonic: those without an operand, then those with one.
    split at h
    next => exact hplain h trivial
    next => exact hplain h trivial
    next => exact hplain h trivial
    next =>
      obtain ⟨name, hok, h⟩ := ofExcept_bind h
      simp only [Yields.bind_iff, Yields.pure_iff, Emit.push, Emit.slot] at h
      obtain ⟨_, _, ⟨_, _, ⟨rfl, rfl⟩, hpush⟩, -, rfl⟩ := h
      exact ⟨_, (Emit.pushSlot_spec hpush).1, List.forall_mem_singleton.mpr (inlineName_ok hok)⟩
    next =>
      obtain ⟨address, -, h⟩ := ofExcept_bind h
      exact hplain h ⟨address, rfl⟩
    next =>
      obtain ⟨address, -, h⟩ := ofExcept_bind h
      exact hplain h ⟨address, rfl⟩
    next =>
      obtain ⟨name, hok, h⟩ := ofExcept_bind h
      simp only [Yields.bind_iff, Yields.pure_iff] at h
      obtain ⟨_, _, hjump, -, rfl⟩ := h
      exact ⟨_, (Emit.jumpIndirect_spec hjump).1, List.forall_mem_singleton.mpr (inlineName_ok hok)⟩
    next =>
      obtain ⟨name, -, h⟩ := ofExcept_bind h
      simp only [Yields.bind_iff, Yields.pure_iff] at h
      obtain ⟨_, _, hcall, -, rfl⟩ := h
      exact ⟨_, Emit.callPushed_spec hcall, List.forall_mem_singleton.mpr trivial⟩
    next =>
      obtain ⟨-, rfl⟩ := Yields.pure_iff.mp h
      exact ⟨[], .refl _, by simp⟩
    next => simp at h

theorem inlineInstructions_emits {ids : List NodeId}
    (h : Yields (inlineInstructions cfg t ids) a () a') :
    ∃ code, Emits a code a' ∧ ∀ i ∈ code, i.Inline t := by
  induction ids generalizing a with
  | nil =>
    obtain ⟨-, rfl⟩ := Yields.pure_iff.mp h
    exact ⟨[], .refl _, by simp⟩
  | cons id ids ih =>
    simp only [inlineInstructions, Yields.bind_iff] at h
    obtain ⟨_, a₁, hfirst, hrest⟩ := h
    obtain ⟨code, hemits, hcode⟩ := inlineInstruction_emits hfirst
    obtain ⟨code', hemits', hcode'⟩ := ih hrest
    exact ⟨_, hemits.trans hemits', List.forall_mem_append.mpr ⟨hcode, hcode'⟩⟩

end Inline

/-! ## Steps of every kind

`Spares` is what all steps have in common: the code they add names only allowed slots, and
temporaries that are held below the unit stay as they are. For units that are none of an event
this is their footprint. For events it is shown here, for which the slots of return addresses
must be allowed, too (`EventVocabulary`). -/

/-- What resolution has found out about an entry point. -/
def EntryPoint.declaration (entry : EntryPoint) : String × Nat := (entry.returnPointer, entry.blocks)

/-- The slots of return addresses and the numbers of blocks stay the same. -/
def Workspace.SameDeclarations (w w' : Workspace) : Prop :=
  ∀ label, (w'.entryPoints.get? label).map (·.declaration) =
    (w.entryPoints.get? label).map (·.declaration)

theorem Workspace.SameDeclarations.trans {w w' w'' : Workspace} (h : w.SameDeclarations w')
    (h' : w'.SameDeclarations w'') : w.SameDeclarations w'' :=
  fun label => (h' label).trans (h label)

theorem Workspace.SameDeclarations.ofSame {w w' : Workspace} (h : w'.entryPoints = w.entryPoints) :
    w.SameDeclarations w' := by
  intro label
  rw [h]

theorem Workspace.SameDeclarations.get? {w w' : Workspace} {label : String} {entry : EntryPoint}
    (h : w.SameDeclarations w') (hentry : w'.entryPoints.get? label = some entry) :
    ∃ entry', w.entryPoints.get? label = some entry' ∧
      entry'.returnPointer = entry.returnPointer ∧ entry'.blocks = entry.blocks := by
  have hsame := h label
  rw [hentry, Option.map_some] at hsame
  obtain ⟨entry', hentry', heq⟩ := Option.map_eq_some_iff.mp hsame.symm
  obtain ⟨hpointer, hblocks⟩ := Prod.mk.inj heq
  exact ⟨entry', hentry', hpointer, hblocks⟩

theorem Workspace.EntryChanged.sameDeclarations {w w' : Workspace} {label : String}
    {f : EntryPoint → EntryPoint} (h : w.EntryChanged label f w')
    (hf : ∀ entry, (f entry).declaration = entry.declaration) : w.SameDeclarations w' := by
  intro other
  rw [h other]
  split
  next hother =>
    subst hother
    rw [Option.map_map]
    congr 1
    exact funext hf
  next => rfl

/-- The slots that the code of events needs are allowed. -/
structure EventVocabulary (P D : String → Prop) (t : Tree) (w : Workspace) : Prop where
  named : ∀ id name, (t.tag id).text? = some name → D name
  result : P Catalog.returnValue
  pointers : ∀ label entry, w.entryPoints.get? label = some entry →
    P entry.returnPointer ∧ D entry.returnPointer

theorem EventVocabulary.same {P D : String → Prop} {t : Tree} {w w' : Workspace}
    (h : EventVocabulary P D t w) (hsame : w.SameDeclarations w') : EventVocabulary P D t w' := by
  refine ⟨h.named, h.result, fun label entry hentry => ?_⟩
  obtain ⟨entry', hentry', hpointer, -⟩ := hsame.get? hentry
  rw [← hpointer]
  exact h.pointers label entry' hentry'

/-- What a step of any unit does to code, to temporaries and to the slots that are known. -/
structure Spares (P D : String → Prop) (t : Tree) (u : WorkUnit) (w : Workspace) (p : Progress)
    (u' : WorkUnit) (w' : Workspace) : Prop where
  lengthens : Lengthens P D w w'
  vocabulary : Vocabulary P t w'
  uses : ∀ name ∈ u'.uses, P name
  target : ∀ child name, p = .descend child (some name) → P name
  beneath : ∀ name, u'.beneath w' name = u.beneath w name
  holds : u.Holds w → u'.Holds w'
  known : ∀ name, w'.Known name → w.Known name ∨ w.assembly.heap.slots.get? name = none
  declarations : w.SameDeclarations w'

section Steps

variable {P D : String → Prop} {cfg : Setting} {t : Tree} {u u' : WorkUnit} {w w' : Workspace}
  {p : Progress}

theorem Footprint.spares (h : Footprint P D t u w p u' w') : Spares P D t u w p u' w' :=
  ⟨h.confined.grows.toLengthens, h.confined.vocabulary, h.confined.uses, h.target,
    h.confined.beneath, h.confined.holds, h.confined.known, .ofSame h.confined.entryPoints⟩

/-- A step that rents nothing and gives nothing back. -/
theorem Spares.ofRented (hlengthens : Lengthens P D w w') (hvocabulary : Vocabulary P t w')
    (hrented : w'.rented = w.rented) (hpools : w'.pools = w.pools)
    (hdeclarations : w.SameDeclarations w')
    (htemps : u'.temps = u.temps) (huses : ∀ name ∈ u'.uses, P name)
    (htarget : ∀ child name, p = .descend child (some name) → P name) :
    Spares P D t u w p u' w' := by
  refine ⟨hlengthens, hvocabulary, huses, htarget, fun name => ?_, ?_,
    fun name hname => Or.inl (hname.ofSame hrented hpools), hdeclarations⟩
  · rw [WorkUnit.beneath, WorkUnit.beneath, htemps, hrented]
  · rw [WorkUnit.Holds, WorkUnit.Holds, htemps, hrented]
    exact id

theorem EntryPoint.declaration_called (jump : InstructionId) (entry : EntryPoint) :
    (entry.called jump).declaration = entry.declaration := by
  unfold called
  split <;> rfl

theorem EntryPoint.declaration_begun (start : JumpTarget) (entry : EntryPoint) :
    (entry.begun start).declaration = entry.declaration := by
  unfold begun
  split <;> rfl

theorem EntryPoint.declaration_ended (jump : InstructionId) (entry : EntryPoint) :
    (entry.ended jump).declaration = entry.declaration := by
  unfold ended
  split <;> rfl

variable (hw : Vocabulary P t w) (hevents : EventVocabulary P D t w)

include hw hevents

/-- The last step of an event only ends its block, and lets the code jump over it. -/
theorem stepEvent_ends {n : Nat} {skip : Option InstructionId}
    (h : Yields (stepEvent cfg t n u skip) w (p, u') w') (hn : n ≠ 0) :
    p = .done ∧ u' = u ∧ Lengthens P D w w' ∧ Vocabulary P t w' ∧ w'.rented = w.rented ∧
      w'.pools = w.pools ∧ w.SameDeclarations w' := by
  obtain ⟨first, label, -, -, ⟨hzero, -⟩ | ⟨-, rfl, rfl, w₁, hend, hpatch⟩⟩ := stepEvent_cases h
  · exact absurd hzero hn
  · obtain ⟨entry, -, hextended, -, hchanged⟩ := endBlock_spec (D := D) hw
      (fun entry hentry => (hevents.pointers label entry hentry).2) hend
    have hretargets := patchAll_spec hpatch
    have hpatched : Extended P D t skip.toList w₁ w' := .ofRetargets hextended.vocabulary hretargets
    exact ⟨rfl, rfl, hextended.grows.toLengthens.trans hpatched.grows.toLengthens,
      hpatched.vocabulary, hpatched.rented.trans hextended.rented,
      hpatched.pools.trans hextended.pools,
      (hchanged.sameDeclarations (EntryPoint.declaration_ended _)).trans
        (.ofSame hretargets.entryPoints)⟩

variable (hu : ∀ name ∈ u.uses, P name)

include hu

theorem stepEvent_spares {n : Nat} {skip : Option InstructionId}
    (h : Yields (stepEvent cfg t n u skip) w (p, u') w') (htask : u.task = .event skip) :
    Spares P D t u w p u' w' := by
  by_cases hn : n = 0
  swap
  · obtain ⟨rfl, rfl, hlengthens, hvocabulary, hrented, hpools, hsame⟩ :=
      stepEvent_ends hw hevents h hn
    exact .ofRented hlengthens hvocabulary hrented hpools hsame rfl hu (by simp)
  obtain ⟨first, label, -, -, ⟨-, skip', body, w₁, hcall, hbegin, -, rfl, rfl⟩ | ⟨hne, -⟩⟩ :=
    stepEvent_cases h
  swap
  · exact absurd hn hne
  -- A block in a value is called where it stands, and jumped over.
  have hcall' : Extended P D t [] w w₁ ∧ w.SameDeclarations w₁ := by
    rcases hcall with ⟨-, -, rfl⟩ | ⟨target, jump, w₀, htarget, -, hcall, hjump⟩
    · exact ⟨⟨.refl w, hw, rfl, rfl⟩, .ofSame rfl⟩
    · have hslot : ∀ slot, some target = some slot → P slot := by
        intro slot heq
        obtain rfl := Option.some.inj heq
        refine hu target ?_
        rw [WorkUnit.uses, htarget]
        exact List.mem_append_left _ (List.mem_append_left _ List.mem_cons_self)
      obtain ⟨entry, -, hextended, -, hchanged⟩ := callEvent_spec (D := D) hw
        ⟨fun label entry hentry => (hevents.pointers label entry hentry).1, hevents.result⟩
        hslot hcall
      obtain ⟨-, happends⟩ := Appends.jump hjump
      have hjumps : Extended P D t [] w₀ w₁ :=
        .ofAppends hextended.vocabulary happends (List.forall_mem_singleton.mpr trivial)
      exact ⟨hextended.trans hjumps (by simp), (hchanged.sameDeclarations
        (EntryPoint.declaration_called _)).trans (.ofSame happends.entryPoints)⟩
  obtain ⟨hextended, hsame⟩ := hcall'
  obtain ⟨entry, -, hbegins, hvocabulary⟩ := beginBlock_spec hextended.vocabulary hbegin
  refine .ofRented (hextended.grows.toLengthens.trans (.ofLength hbegins.later hbegins.length))
    hvocabulary (hbegins.rented.trans hextended.rented) (hbegins.pools.trans hextended.pools)
    (hsame.trans (hbegins.changed.sameDeclarations (EntryPoint.declaration_begun _))) rfl
    (fun name hname => ?_) fun child name hp => ?_
  · simp only [WorkUnit.uses, Task.uses, List.append_nil] at hname
    exact hu name (List.mem_append_left _ hname)
  · rw [← Option.some.inj (Progress.descend.inj hp).2]
    exact hevents.result

/-- A step of any unit names only what is allowed, and leaves the temporaries that are held below
its unit as they are. -/
theorem step_spares (h : Yields (step cfg t u) w (p, u') w') : Spares P D t u w p u' w' := by
  cases hlocal : u.task.isLocal with
  | true => exact (step_footprint hw hu hlocal h).spares
  | false =>
    obtain ⟨node, target, n, temps, task⟩ := u
    have hu' : ∀ name ∈ (⟨node, target, n + 1, temps, task⟩ : WorkUnit).uses, P name := hu
    cases task with
    | event skip =>
      have hspares := stepEvent_spares hw hevents hu' h rfl
      exact ⟨hspares.lengthens, hspares.vocabulary, hspares.uses, hspares.target, hspares.beneath,
        hspares.holds, hspares.known, hspares.declarations⟩
    | callEvent =>
      obtain ⟨name, -, hcall, rfl, rfl⟩ := step_callEvent_cases h
      obtain ⟨entry, -, hextended, -, hchanged⟩ := callEvent_spec (D := D) hw
        ⟨fun label entry hentry => (hevents.pointers label entry hentry).1, hevents.result⟩
        (fun slot hslot => hu slot (by
          rw [WorkUnit.uses, hslot]
          exact List.mem_append_left _ (List.mem_append_left _ List.mem_cons_self))) hcall
      exact .ofRented hextended.grows.toLengthens hextended.vocabulary hextended.rented
        hextended.pools (hchanged.sameDeclarations (EntryPoint.declaration_called _)) rfl hu' (by simp)
    | inlineAsm =>
      obtain ⟨a, hinline, rfl, rfl, rfl⟩ := step_inlineAsm_cases h
      obtain ⟨code, hemits, hcode⟩ := inlineInstructions_emits hinline
      have hextended : Extended P D t [] w { w with assembly := a } :=
        .ofAppends hw (.ofEmits hemits) fun i hi => (hcode i hi).within fun id name hname =>
          ⟨hw.named id name hname, hevents.named id name hname⟩
      exact .ofRented hextended.grows.toLengthens hextended.vocabulary rfl rfl (.ofSame rfl) rfl hu'
        (by simp)
    | _ => cases hlocal

end Steps

/-! ## Runs

While a temporary is held by a unit on the stack, it is not free, so the set of all other names
is a vocabulary (`Attended.apart`), and stays one during the run. So code that is emitted
meanwhile does not name the temporary. -/

section Runs

variable {P D : String → Prop} {cfg : Setting} {t : Tree} {u u' : WorkUnit}
  {stack stack' : List WorkUnit} {before w w' : Workspace} {p : Progress} {x : String}

/-- A unit starts with nothing but its target. -/
theorem uses_start {child : NodeId} {target : Option String} {next : WorkUnit}
    (h : Yields (start t child target) w next w')
    (htarget : ∀ name, target = some name → P name) : ∀ name ∈ next.uses, P name := by
  obtain ⟨-, construct, -, rfl⟩ := start_cases h
  intro name hname
  have hnone : (Task.ofConstruct construct).uses = [] := by cases construct <;> rfl
  simp only [WorkUnit.uses, hnone, List.append_nil] at hname
  exact htarget name (Option.mem_toList.mp hname)

/-- A unit that comes to its end has named only what is allowed, with all that it went to. -/
theorem Generation.Finishes.lengthens (h : Finishes cfg t u w w') (hw : Vocabulary P t w)
    (hevents : EventVocabulary P D t w) (hu : ∀ name ∈ u.uses, P name) :
    Lengthens P D w w' ∧ Vocabulary P t w' ∧ w.SameDeclarations w' := by
  induction h with
  | done hstep =>
    have hspares := step_spares hw hevents hu hstep
    exact ⟨hspares.lengthens, hspares.vocabulary, hspares.declarations⟩
  | again hstep _ ih =>
    have hspares := step_spares hw hevents hu hstep
    obtain ⟨hlengthens, hvocabulary, hsame⟩ :=
      ih hspares.vocabulary (hevents.same hspares.declarations) hspares.uses
    exact ⟨hspares.lengthens.trans hlengthens, hvocabulary, hspares.declarations.trans hsame⟩
  | descend hstep hstart _ _ ihchild ihrest =>
    have hspares := step_spares hw hevents hu hstep
    have huses := uses_start (P := P) hstart fun name hname =>
      hspares.target _ name (by rw [hname])
    obtain ⟨rfl, -⟩ := start_cases hstart
    obtain ⟨hlengthens, hvocabulary, hsame⟩ :=
      ihchild hspares.vocabulary (hevents.same hspares.declarations) huses
    obtain ⟨hlengthens', hvocabulary', hsame'⟩ := ihrest hvocabulary
      (hevents.same (hspares.declarations.trans hsame)) hspares.uses
    exact ⟨(hspares.lengthens.trans hlengthens).trans hlengthens', hvocabulary',
      (hspares.declarations.trans hsame).trans hsame'⟩

/-- What a run keeps: the temporaries that the units of the stack hold are in use, none is held
twice, and all temporaries are slots that generation has made. -/
structure Attended (t : Tree) (before : Workspace) (stack : List WorkUnit) (w : Workspace) :
    Prop where
  vocabulary : Vocabulary (fun _ => True) t w
  later : before.Later w
  declarations : before.SameDeclarations w
  known : ∀ name, w.Known name → before.assembly.heap.slots.get? name = none
  nodup : (stack.flatMap (·.temps)).Nodup
  rented : ∀ name ∈ stack.flatMap (·.temps), w.rented.get? name ≠ none

theorem Attended.step {rest : List WorkUnit} (h : Attended t before (u :: rest) w)
    (hstep : Yields (step cfg t u) w (p, u') w') : Attended t before (u' :: rest) w' := by
  have hspares := step_spares (D := fun _ => True) h.vocabulary
    ⟨fun _ _ _ => trivial, trivial, fun _ _ _ => ⟨trivial, trivial⟩⟩ (fun _ _ => trivial) hstep
  have hnodup := h.nodup
  have hrented := h.rented
  rw [List.flatMap_cons, List.nodup_append] at hnodup
  obtain ⟨hown, hrest, hapart⟩ := hnodup
  rw [List.flatMap_cons] at hrented
  obtain ⟨hown', hrented'⟩ := hspares.holds
    ⟨hown, fun name hname => hrented name (List.mem_append_left _ hname)⟩
  -- What is held below is not held by the unit, before and after.
  have hbelow : ∀ name ∈ rest.flatMap (·.temps), name ∉ u'.temps ∧ w'.rented.get? name ≠ none := by
    intro name hname
    have hbeneath := hspares.beneath name
    rw [WorkUnit.beneath, WorkUnit.beneath,
      if_neg (fun hmem => hapart name hmem name hname rfl : name ∉ u.temps)] at hbeneath
    have hsome := hrented name (List.mem_append_right _ hname)
    split at hbeneath
    next => exact absurd hbeneath.symm hsome
    next hnot => exact ⟨hnot, by rw [hbeneath]; exact hsome⟩
  refine ⟨hspares.vocabulary, h.later.trans hspares.lengthens.later,
    h.declarations.trans hspares.declarations, fun name hname => ?_, ?_, ?_⟩
  · rcases hspares.known name hname with hname | hnone
    · exact h.known name hname
    · exact h.later.heap.get?_eq_none hnone
  · rw [List.flatMap_cons, List.nodup_append]
    refine ⟨hown', hrest, fun name hname other hother heq => ?_⟩
    subst heq
    exact (hbelow name hother).1 hname
  · intro name hname
    rw [List.flatMap_cons] at hname
    rcases List.mem_append.mp hname with hname | hname
    · exact hrented' name hname
    · exact (hbelow name hname).2

theorem Attended.move (h : Attended t before stack w) (hmove : Move cfg t stack w stack' w') :
    Attended t before stack' w' := by
  cases hmove with
  | done hstep =>
    have hnext := h.step hstep
    have hnodup := hnext.nodup
    rw [List.flatMap_cons, List.nodup_append] at hnodup
    exact ⟨hnext.vocabulary, hnext.later, hnext.declarations, hnext.known, hnodup.2.1,
      fun name hname => hnext.rented name (List.mem_append_right _ hname)⟩
  | again hstep => exact h.step hstep
  | descend hstep hstart =>
    have hnext := h.step hstep
    obtain ⟨rfl, construct, -, rfl⟩ := start_cases hstart
    exact ⟨hnext.vocabulary, hnext.later, hnext.declarations, hnext.known, hnext.nodup, hnext.rented⟩

theorem Generation.Reaches.attended (h : Reaches cfg t stack w stack' w')
    (hw : Attended t before stack w) : Attended t before stack' w' := by
  induction h with
  | refl => exact hw
  | head hmove _ ih => exact ih (hw.move hmove)

theorem Resolution.Prepared.attended (h : Prepared cfg t before)
    (hstart : Yields (start t Tree.root none) before u before) :
    Attended t before [u] before := by
  obtain ⟨-, construct, -, rfl⟩ := start_cases hstart
  refine ⟨⟨⟨fun value name hname => ?_⟩, h.unstarted.pooled, fun _ _ _ => trivial,
    fun _ _ => trivial, fun _ _ _ => trivial⟩, .refl _, fun _ => rfl, fun name hname => ?_,
    List.nodup_nil, by simp⟩
  · rw [h.unstarted.constants] at hname
    cases hname
  · rcases hname with hname | ⟨type, pool, hpool, -⟩
    · rw [h.unstarted.rented] at hname
      exact absurd rfl hname
    · rw [h.unstarted.pools] at hpool
      cases hpool

/-- No name begins like a temporary and like the slot of a literal. -/
theorem not_constant_of_temporary {name : String} (htemp : tempLead.toList <+: name.toList) :
    ¬ Heap.constantLead.toList <+: name.toList := by
  intro hconstant
  rcases List.prefix_or_prefix_of_prefix htemp hconstant with h | h
  · exact absurd h (by decide)
  · exact absurd h (by decide)

/-- While a temporary is held by a unit on the stack, and the tree does not name it, all names that
new code needs are others. -/
theorem Attended.apart (h : Attended t before stack w) (hbefore : Prepared cfg t before)
    (hx : x ∈ stack.flatMap (·.temps)) (hnamed : ∀ id, (t.tag id).text? ≠ some x) :
    Vocabulary (· ≠ x) t w ∧ EventVocabulary (· ≠ x) (· ≠ x) t w := by
  have hrented := h.rented x hx
  obtain ⟨type, htype⟩ := Option.ne_none_iff_exists'.mp hrented
  obtain ⟨hlead, -⟩ := h.vocabulary.pooled.rented x type htype
  have hid : ∀ id name, (t.tag id).text? = some name → name ≠ x := by
    rintro id name hname rfl
    exact hnamed id hname
  refine ⟨⟨h.vocabulary.sound, h.vocabulary.pooled, hid, fun name hname heq => ?_,
    fun name _ hfree heq => ?_⟩, ⟨hid, fun heq => ?_, fun label entry hentry => ?_⟩⟩
  · subst heq
    exact not_constant_of_temporary hlead hname
  · subst heq
    exact hrented hfree
  · rw [← heq] at hlead
    exact absurd hlead (by decide)
  · -- The slot of the return address was there before, and that of the temporary was not.
    obtain ⟨entry', hentry', hsame, -⟩ := h.declarations.get? hentry
    obtain ⟨v, hv⟩ := OrderedMap.contains_iff.mp
      (hbefore.unstarted.entryPoints label entry' hentry').pointer
    have hnone := h.known x (Or.inl hrented)
    have hne : entry.returnPointer ≠ x := by
      rintro rfl
      rw [← hsame, hv] at hnone
      cases hnone
    exact ⟨hne, hne⟩

theorem Generation.FinishAll.later {rest : List WorkUnit} (h : FinishAll cfg t rest w w')
    (hw : Vocabulary (fun _ => True) t w) : w.Later w' := by
  induction rest generalizing w with
  | nil =>
    obtain rfl : w = w' := h
    exact .refl w
  | cons v rest ih =>
    obtain ⟨w₁, hfirst, hrest⟩ := h
    obtain ⟨hlengthens, hvocabulary, -⟩ := hfirst.lengthens (D := fun _ => True) hw
      ⟨fun _ _ _ => trivial, trivial, fun _ _ _ => ⟨trivial, trivial⟩⟩ fun _ _ => trivial
    exact hlengthens.later.trans (ih hrest hvocabulary)

end Runs

/-! ## Blocks

A block is compiled between two steps of its unit (`CompilesBlock`). All of its code is emitted
while the temporaries below are held, which gives the theorem. -/

/-- The instruction names a slot. -/
def Instruction.Names (x : String) : Instruction → Prop
  | .push name => name = x
  | .jumpIndirect name => name = x
  | _ => False

theorem Instruction.Within.not_names {x : String} {i : Instruction}
    (h : i.Within (· ≠ x) (· ≠ x)) : ¬ i.Names x := by
  cases i with
  | push name => exact h
  | jumpIndirect name => exact h
  | _ => exact id

/-- The unit of an event compiles its block between two places in the code: its first step begins
the block, the body is compiled, and its last step ends the block. -/
def CompilesBlock (cfg : Setting) (t : Tree) (u : WorkUnit) (w : Workspace) (lo hi : Nat) : Prop :=
  ∃ body target u' w₁ next w₂ last w₃, Yields (step cfg t u) w (.descend body target, u') w₁ ∧
    Yields (start t body target) w₁ next w₁ ∧ Finishes cfg t next w₁ w₂ ∧
    Yields (step cfg t u') w₂ (.done, last) w₃ ∧
    w₁.assembly.instructions.length = lo ∧ w₃.assembly.instructions.length = hi

section Blocks

variable {cfg : Setting} {t : Tree} {u : WorkUnit} {rest : List WorkUnit} {before w last : Workspace}
  {skip : Option InstructionId}

/-- The unit of an event that comes to its end takes two steps, and goes to the body in between. -/
theorem finishes_event (htask : u.task = .event skip) (hstep : u.step = 0)
    (h : Finishes cfg t u w last) :
    ∃ body u' w₁ next w₂ u'', Yields (step cfg t u) w
        (.descend body (some Catalog.returnValue), u') w₁ ∧
      Yields (start t body (some Catalog.returnValue)) w₁ next w₁ ∧ Finishes cfg t next w₁ w₂ ∧
      Yields (step cfg t u') w₂ (.done, u'') last ∧ u'.temps = u.temps ∧ u'.step ≠ 0 ∧
      ∃ skip', u'.task = .event skip' := by
  obtain ⟨node, target, n, temps, task⟩ := u
  obtain rfl : task = .event skip := htask
  obtain rfl : n = 0 := hstep
  -- Only the first step of an event goes to a child.
  have hfirst : ∀ {p : Progress} {u' : WorkUnit} {w₁ : Workspace},
      Yields (step cfg t ⟨node, target, 0, temps, .event skip⟩) w (p, u') w₁ →
      ∃ body skip', p = .descend body (some Catalog.returnValue) ∧
        u' = ⟨node, target, 1, temps, .event skip'⟩ := by
    intro p u' w₁ h
    obtain ⟨first, label, -, -, ⟨-, skip', body, w₀, -, -, -, rfl, rfl⟩ | ⟨hne, -⟩⟩ :=
      stepEvent_cases h
    · exact ⟨body, skip', rfl, rfl⟩
    · exact absurd rfl hne
  have hlast : ∀ {p : Progress} {u' : WorkUnit} {skip' : Option InstructionId}
      {w₁ w₂ : Workspace}, Yields (step cfg t ⟨node, target, 1, temps, .event skip'⟩) w₁ (p, u') w₂ →
      p = .done := by
    intro p u' skip' w₁ w₂ h
    obtain ⟨first, label, -, -, ⟨hzero, -⟩ | ⟨-, rfl, -⟩⟩ := stepEvent_cases h
    · cases hzero
    · rfl
  cases h with
  | done hstep =>
    obtain ⟨body, skip', hp, -⟩ := hfirst hstep
    cases hp
  | again hstep _ =>
    obtain ⟨body, skip', hp, -⟩ := hfirst hstep
    cases hp
  | descend hstep hstart hchild hrest =>
    obtain ⟨body, skip', hp, rfl⟩ := hfirst hstep
    obtain ⟨rfl, rfl⟩ := Progress.descend.inj hp
    obtain ⟨rfl, -⟩ := start_cases hstart
    cases hrest with
    | done hend =>
      exact ⟨_, _, _, _, _, _, hstep, hstart, hchild, hend, rfl, by simp, skip', rfl⟩
    | again hend _ => cases hlast hend
    | descend hend _ _ _ => cases hlast hend

/-- The code of a block names no temporary that is held by a unit on the stack when the block
begins. -/
theorem Attended.exists_block (hbefore : Prepared cfg t before)
    (h : Attended t before (u :: rest) w) (htask : u.task = .event skip) (hstep : u.step = 0)
    (hend : Reaches cfg t (u :: rest) w [] last) :
    ∃ lo hi, CompilesBlock cfg t u w lo hi ∧ ∀ v ∈ u :: rest, ∀ x ∈ v.temps,
      (∀ id, (t.tag id).text? ≠ some x) → ∀ k i, lo ≤ k → k < hi →
        last.assembly.instructions[k]? = some i → ¬ i.Names x := by
  obtain ⟨w₃, hfinishes, hrest⟩ := hend.finishAll
  obtain ⟨body, u', w₁, next, w₂, u'', hbegin, hstart, hbody, hlast, htemps, hne, skip', htask'⟩ :=
    finishes_event htask hstep hfinishes
  refine ⟨_, _, ⟨body, _, u', w₁, next, w₂, u'', w₃, hbegin, hstart, hbody, hlast, rfl, rfl⟩,
    fun v hv x hx hnamed k i hlo hhi hi => ?_⟩
  have hbegun := h.step hbegin
  have hx' : x ∈ (u' :: rest).flatMap (·.temps) := by
    rw [List.flatMap_cons, htemps, ← List.flatMap_cons]
    exact List.mem_flatMap.mpr ⟨v, hv, hx⟩
  obtain ⟨hw₁, hevents₁⟩ := hbegun.apart hbefore hx' hnamed
  obtain ⟨hlengthens, hw₂, hsame⟩ := hbody.lengthens hw₁ hevents₁
    (uses_start hstart fun name hname => Option.some.inj hname ▸ hevents₁.result)
  -- The last step names the slot of the return address, at most.
  have hends : Lengthens (· ≠ x) (· ≠ x) w₂ w₃ ∧ Vocabulary (· ≠ x) t w₃ := by
    obtain ⟨node, target, n, temps, task⟩ := u'
    obtain rfl : task = .event skip' := htask'
    obtain ⟨-, -, hlengthens', hw₃, -⟩ :=
      stepEvent_ends hw₂ (hevents₁.same hsame) hlast hne
    exact ⟨hlengthens', hw₃⟩
  have hlater := hrest.later ⟨hends.2.sound, hends.2.pooled, fun _ _ _ => trivial,
    fun _ _ => trivial, fun _ _ _ => trivial⟩
  obtain ⟨j, hj, hsame'⟩ := hlater.code k _ (List.getElem?_eq_getElem hhi)
  obtain rfl := Option.some.inj (hi.symm.trans hj)
  rcases hsame' with rfl | ⟨target, htarget⟩
  · exact ((hlengthens.trans hends.1).within k _ hlo (List.getElem?_eq_getElem hhi)).not_names
  · exact (Instruction.within_of_retarget? htarget).not_names

end Blocks

/-- In a program that compiles, the code of a block of an event names no temporary that a unit on
the stack holds when the block begins, unless the source names it. -/
theorem Program.compile_spares_temporaries {cfg : Setting} {source : String} {p : Program}
    (h : Program.compile cfg source = .ok p) :
    ∃ t before after first, Program.Stages cfg source p t before after ∧
      Yields (start t Tree.root none) before first before ∧
      Reaches cfg t [first] before [] after ∧
      ∀ u rest w skip, Reaches cfg t [first] before (u :: rest) w → u.task = .event skip →
        u.step = 0 → ∃ lo hi, CompilesBlock cfg t u w lo hi ∧ ∀ v ∈ u :: rest, ∀ x ∈ v.temps,
          (∀ id, (t.tag id).text? ≠ some x) → ∀ k i, lo ≤ k → k < hi →
            after.assembly.instructions[k]? = some i → ¬ i.Names x := by
  obtain ⟨t, before, after, hstages⟩ := Program.compile_stages h
  obtain ⟨x, -, hholds⟩ := Tree.read?_ok (Tree.read_eq_ok_iff.mp hstages.read)
  obtain ⟨first, hstart, hend⟩ := generate_cases hholds hstages.generated
  refine ⟨t, before, after, first, hstages, hstart, hend,
    fun u rest w skip hreaches htask hstep => ?_⟩
  have hprepared := Program.resolved_prepared hstages.resolved
  exact (hreaches.attended (hprepared.attended hstart)).exists_block hprepared htask hstep
    (hreaches.rest_of_end hend)

/-- What a run goes down to in its first step, above the unit that waits for it. -/
def firstDescent? (cfg : Setting) (t : Tree) (w : Workspace) : Option (WorkUnit × WorkUnit) :=
  match (start t Tree.root none).run w with
  | .ok first w =>
    match (step cfg t first).run w with
    | .ok (.descend child target, u) w =>
      match (start t child target).run w with
      | .ok next _ => some (next, u)
      | .error _ _ => none
    | _ => none
  | .error _ _ => none

/-- The condition of a conditional is a block that is called in place: its code leaves alone the
temporary that the conditional holds for the value. -/
theorem Program.compile_spares_temporaries_condition :
    ∃ p t before after first u rest w lo hi,
      Program.compile ⟨Catalog.empty, true⟩ "if(when(_a,if(true,true,false)),1,2)" = .ok p ∧
      Program.Stages ⟨Catalog.empty, true⟩ "if(when(_a,if(true,true,false)),1,2)" p t before after ∧
      Reaches ⟨Catalog.empty, true⟩ t [first] before (u :: rest) w ∧
      "__temp_SystemBoolean_0" ∈ rest.flatMap (·.temps) ∧
      CompilesBlock ⟨Catalog.empty, true⟩ t u w lo hi ∧
      ∀ k i, lo ≤ k → k < hi → after.assembly.instructions[k]? = some i →
        ¬ i.Names "__temp_SystemBoolean_0" := by
  have hok : (Program.compile ⟨Catalog.empty, true⟩
      "if(when(_a,if(true,true,false)),1,2)").isOk = true := by
    decide +kernel
  obtain ⟨p, hp⟩ := exists_ok_of_isOk hok
  obtain ⟨t, before, after, first, hstages, hstart, hend, hspares⟩ :=
    Program.compile_spares_temporaries hp
  have hnamed : ∀ id, (t.tag id).text? ≠ some "__temp_SystemBoolean_0" := by
    have hread : (Tree.read "if(when(_a,if(true,true,false)),1,2)").toOption.all fun t =>
        decide (∀ id < t.size, (t.tag id).text? ≠ some "__temp_SystemBoolean_0") := by
      decide +kernel
    rw [hstages.read] at hread
    intro id
    rcases Nat.lt_or_ge id t.size with hlt | hge
    · exact of_decide_eq_true hread id hlt
    · simp [Tree.tag, Tree.node_of_le hge, Value.text?]
  -- The first step of the conditional goes to its condition, with the temporary in hand.
  have hrun : (Tree.read "if(when(_a,if(true,true,false)),1,2)").toOption.all fun t =>
      (Program.resolved ⟨Catalog.empty, true⟩ t).toOption.all fun w =>
        (firstDescent? ⟨Catalog.empty, true⟩ t w).any fun pair => pair.1.task == .event none &&
          pair.1.step == 0 && pair.2.temps == ["__temp_SystemBoolean_0"] := by
    decide +kernel
  rw [hstages.read, Except.toOption, Option.all_some, hstages.resolved, Except.toOption,
    Option.all_some, firstDescent?, EStateM.run, hstart] at hrun
  cases hend with
  | head hmove _ =>
    cases hmove with
    | done hstep =>
      simp only [EStateM.run, show step _ _ _ _ = _ from hstep] at hrun
      cases hrun
    | again hstep =>
      simp only [EStateM.run, show step _ _ _ _ = _ from hstep] at hrun
      cases hrun
    | @descend _ u next _ _ _ _ _ _ hstep hnext =>
      simp only [EStateM.run, show step _ _ _ _ = _ from hstep,
        show start _ _ _ _ = _ from hnext, Option.any_some, Bool.and_eq_true, beq_iff_eq] at hrun
      obtain ⟨⟨htask, hzero⟩, htemps⟩ := hrun
      have hreaches : Reaches ⟨Catalog.empty, true⟩ t [first] before [next, u] _ :=
        .head (.descend hstep hnext) (.refl _ _)
      have hmem : "__temp_SystemBoolean_0" ∈ u.temps := by
        rw [htemps]
        exact List.mem_singleton_self _
      obtain ⟨lo, hi, hblock, hcode⟩ := hspares next [u] _ none hreaches htask hzero
      exact ⟨p, t, before, after, first, next, [u], _, lo, hi, hp, hstages, hreaches,
        List.mem_flatMap.mpr ⟨u, List.mem_singleton_self u, hmem⟩, hblock,
        hcode u (List.mem_cons_of_mem _ (List.mem_singleton_self u)) _ hmem hnamed⟩

end SexprAsm
