import SexprAsm.Proofs.Generation.Survival

/-!
# Jumps get their targets

A unit emits jumps before it knows where they go. Such a jump is owed a target from then on, and the
unit keeps it among its own until a later step gives it one (`Settles`). No unit forgets a jump on
the way: where a step replaces the jump that a task holds, the step before has given that one its
target (`WorkUnit.Punctual`). So a unit that is done owes nothing, and all else that it has emitted
goes to a place in the code.

Calls and blocks of events are not like that. They leave jumps to others, which the next module
follows.
-/

namespace SexprAsm

open Generation Workspace

/-! ## Targets in the code

A target is an instruction that is there, or the place behind one. More code keeps it so, and so
does a change of other targets. -/

/-- A jump can go there, in code of some length. -/
def JumpTarget.Sited (length : Nat) : JumpTarget → Prop
  | .unresolved => False
  | .address _ => True
  | .after id => ∀ k ∈ id, k < length

/-- The instruction goes nowhere but on, or where it goes is in the code. -/
def Instruction.Sited (length : Nat) (i : Instruction) : Prop :=
  ∀ target ∈ i.target?, target.Sited length

section Sited

variable {n m : Nat} {target : JumpTarget} {i i' : Instruction}

theorem JumpTarget.Sited.mono (h : target.Sited n) (hle : n ≤ m) : target.Sited m := by
  cases target with
  | unresolved => exact h
  | address a => trivial
  | after id => exact fun k hk => (h k hk).trans_le hle

theorem Instruction.Sited.mono (h : i.Sited n) (hle : n ≤ m) : i.Sited m :=
  fun target htarget => (h target htarget).mono hle

theorem Instruction.Sited.retarget (htarget : target.Sited n) (h : i.retarget? target = some i') :
    i'.Sited n := by
  intro other hother
  rw [Instruction.target?_of_retarget? h] at hother
  exact Option.some.inj hother ▸ htarget

theorem Instruction.Sited.ofNone (h : i.target? = none) : i.Sited n := by
  intro target htarget
  rw [h] at htarget
  cases htarget

theorem Instruction.Inline.sited {t : Tree} (h : i.Inline t) : i.Sited n := by
  intro target htarget
  cases i with
  | jump other =>
    obtain ⟨address, rfl⟩ := h
    exact Option.some.inj htarget ▸ trivial
  | jumpIfFalse other =>
    obtain ⟨address, rfl⟩ := h
    exact Option.some.inj htarget ▸ trivial
  | _ => cases htarget

/-- The end of the code is in the code. -/
theorem Assembly.sited_last (a : Assembly) :
    (JumpTarget.after a.last?).Sited a.instructions.length := by
  intro k hk
  unfold Assembly.last? at hk
  split at hk
  next => cases hk
  next hempty =>
    have hpos : a.lines.size ≠ 0 := fun hzero => hempty (by simp [Array.isEmpty, hzero])
    rw [← Option.some.inj hk, a.length_instructions]
    exact Nat.sub_one_lt hpos

end Sited

/-! ## Jumps that are owed a target

`Settles` follows the jumps that wait through a part of a step: which are owed their target
before, and which after. It composes, and new code is owed only the jumps in it that have no
target yet. -/

/-- What a part of a step does to targets: some jumps were owed one before, and some are owed one
afterwards. All other instructions are as they were, or go to a place in the code. -/
structure Settles (t : Tree) (owed owed' : List InstructionId) (w w' : Workspace) : Prop where
  vocabulary : Vocabulary (fun _ => True) t w'
  grows : w.assembly.instructions.length ≤ w'.assembly.instructions.length
  settled : ∀ k i, w'.assembly.instructions[k]? = some i →
    i.Sited w'.assembly.instructions.length ∨ k ∈ owed' ∨
      k ∉ owed ∧ w.assembly.instructions[k]? = some i

namespace Settles

variable {cfg : Setting} {t : Tree} {owed owed' owed'' jumps : List InstructionId}
  {w w' w'' : Workspace} {u u' : WorkUnit} {code : List Instruction} {target : JumpTarget}

theorem trans (h : Settles t owed owed' w w') (h' : Settles t owed' owed'' w' w'') :
    Settles t owed owed'' w w'' := by
  refine ⟨h'.vocabulary, h.grows.trans h'.grows, fun k i hi => ?_⟩
  rcases h'.settled k i hi with hsited | howed | ⟨hnot, hi⟩
  · exact Or.inl hsited
  · exact Or.inr (Or.inl howed)
  · rcases h.settled k i hi with hsited | howed | hbefore
    · exact Or.inl (hsited.mono h'.grows)
    · exact absurd howed hnot
    · exact Or.inr (Or.inr hbefore)

theorem mono (h : Settles t owed owed' w w') (howed : ∀ k ∈ owed', k ∈ owed'') :
    Settles t owed owed'' w w' :=
  ⟨h.vocabulary, h.grows, fun k i hi => (h.settled k i hi).imp_right (Or.imp_left (howed k))⟩

theorem besides (hw' : Vocabulary (fun _ => True) t w') (hassembly : w'.assembly = w.assembly) :
    Settles t owed owed w w' := by
  refine ⟨hw', by rw [hassembly], fun k i hi => ?_⟩
  rw [hassembly] at hi
  by_cases howed : k ∈ owed
  · exact Or.inr (Or.inl howed)
  · exact Or.inr (Or.inr ⟨howed, hi⟩)

variable (hw : Vocabulary (fun _ => True) t w)

include hw

theorem refl : Settles t owed owed w w := besides hw rfl

/-- New code, with jumps that may be owed their target. -/
theorem appends (h : Appends w code w')
    (hcode : ∀ n i, code[n]? = some i → i.Sited w'.assembly.instructions.length ∨
      w.assembly.instructions.length + n ∈ owed')
    (howed : ∀ k ∈ owed, k ∈ owed') : Settles t owed owed' w w' := by
  refine ⟨hw.appends h, h.length_eq ▸ Nat.le_add_right _ _, fun k i hi => ?_⟩
  rw [h.code_eq] at hi
  rcases Nat.lt_or_ge k w.assembly.instructions.length with hlt | hge
  · rw [List.getElem?_append_left hlt] at hi
    by_cases hk : k ∈ owed
    · exact Or.inr (Or.inl (howed k hk))
    · exact Or.inr (Or.inr ⟨hk, hi⟩)
  · rw [List.getElem?_append_right hge] at hi
    rcases hcode _ i hi with hsited | hmem
    · exact Or.inl hsited
    · rw [Nat.add_sub_cancel' hge] at hmem
      exact Or.inr (Or.inl hmem)

/-- New code that is owed nothing. -/
theorem emits (h : Appends w code w')
    (hcode : ∀ i ∈ code, i.Sited w'.assembly.instructions.length) : Settles t owed owed w w' :=
  appends hw h (fun _ i hi => Or.inl (hcode i (List.mem_of_getElem? hi))) fun _ hk => hk

theorem retargets (h : Retargets jumps target w w')
    (htarget : target.Sited w.assembly.instructions.length)
    (howed : ∀ k ∈ owed, k ∈ owed' ∨ k ∈ jumps) : Settles t owed owed' w w' := by
  refine ⟨hw.retargets h, h.length.ge, fun k i hi => ?_⟩
  have hlt : k < w.assembly.instructions.length :=
    h.length ▸ (List.getElem?_eq_some_iff.mp hi).1
  by_cases hk : k ∈ jumps
  · obtain ⟨i', hi', hget⟩ := h.targets k hk _ (List.getElem?_eq_getElem hlt)
    obtain rfl := Option.some.inj (hi.symm.trans hget)
    rw [h.length]
    exact Or.inl (.retarget htarget hi')
  · rw [h.touches.code k hlt hk] at hi
    by_cases hk' : k ∈ owed
    · exact Or.inr (Or.inl ((howed k hk').resolve_right hk))
    · exact Or.inr (Or.inr ⟨hk', hi⟩)

theorem patches (h : Yields (patchAll target jumps) w () w')
    (htarget : target.Sited w.assembly.instructions.length)
    (howed : ∀ k ∈ owed, k ∈ owed' ∨ k ∈ jumps) : Settles t owed owed' w w' :=
  retargets hw (patchAll_spec h) htarget howed

/-! ### Parts of steps -/

theorem copies {source : Operand} {slot : String} {id : InstructionId}
    (h : Yields (Compile.emit (Emit.copy cfg source slot)) w id w') : Settles t owed owed w w' := by
  obtain ⟨name, -, happends⟩ := Appends.copy hw.sound h
  refine emits hw happends ?_
  simp only [List.forall_mem_cons]
  exact ⟨.ofNone rfl, .ofNone rfl, .ofNone rfl, by simp⟩

theorem copiesToTarget {source : Operand} (h : Yields (copyToTarget cfg u source) w () w') :
    Settles t owed owed w w' := by
  rcases copyToTarget_cases h with ⟨-, rfl⟩ | ⟨slot, id, -, hcopy⟩
  · exact refl hw
  · exact copies hw hcopy

theorem calls {name : String} {operands : List Operand} {id : InstructionId}
    (h : Yields (Compile.emit (Emit.call cfg name operands)) w id w') :
    Settles t owed owed w w' := by
  obtain ⟨slots, heap, -, happends, -⟩ := Appends.call hw.sound h
  refine emits hw happends fun i hi => ?_
  rcases List.mem_append.mp hi with hi | hi
  · obtain ⟨slot, -, rfl⟩ := List.mem_map.mp hi
    exact .ofNone rfl
  · rw [List.mem_singleton.mp hi]
    exact .ofNone rfl

theorem rents {type : TypeId} {name : String} (h : Yields (Build.rent cfg type) w name w') :
    Settles t owed owed w w' := by
  have hconfined : Confined (fun _ => True) (fun _ => True) t ⟨0, none, 0, [], .get⟩ w _ w' :=
    (Confined.rents hw (fun _ _ => trivial) h).1
  obtain ⟨hemits, -⟩ := Build.rent_spec h hw.pooled
  refine ⟨hconfined.vocabulary, hconfined.grows.touches.grows, fun k i hi => ?_⟩
  rw [hemits.code, List.append_nil] at hi
  by_cases howed : k ∈ owed
  · exact Or.inr (Or.inl howed)
  · exact Or.inr (Or.inr ⟨howed, hi⟩)

theorem releases (h : Yields (release u) w u' w') : Settles t owed owed w w' :=
  besides (Confined.releases (D := fun _ => True) hw (fun _ _ => trivial) h).1.vocabulary
    (release_assembly hw.pooled h)

/-- A jump that is owed its target. -/
theorem owes (owed : List InstructionId) {id : InstructionId}
    (h : Yields (Compile.emit (Emit.instruction (.jump .unresolved))) w id w') :
    Settles t owed (id :: owed) w w' ∧ id < w'.assembly.instructions.length := by
  obtain ⟨rfl, happends⟩ := Appends.jump h
  refine ⟨appends hw happends (fun n i hi => Or.inr ?_) fun k hk => List.mem_cons_of_mem _ hk, ?_⟩
  · obtain rfl : n = 0 := by
      have := (List.getElem?_eq_some_iff.mp hi).1
      simpa using this
    exact List.mem_cons_self
  · rw [happends.length_eq]
    exact Nat.lt_succ_self _

/-- A jump to a place in the code. -/
theorem jumpsTo (owed : List InstructionId) {id : InstructionId}
    (htarget : target.Sited w.assembly.instructions.length)
    (h : Yields (Compile.emit (Emit.instruction (.jump target))) w id w') :
    Settles t owed owed w w' ∧ id < w'.assembly.instructions.length := by
  obtain ⟨rfl, happends⟩ := Appends.jump h
  have hlength := happends.length_eq
  refine ⟨emits hw happends (List.forall_mem_singleton.mpr fun other hother => ?_), ?_⟩
  · rw [← Option.some.inj hother, hlength]
    exact htarget.mono (Nat.le_add_right _ _)
  · rw [hlength]
    exact Nat.lt_succ_self _

theorem branches {condition : String} {id : InstructionId}
    (h : Yields (Compile.emit (Emit.jumpIfFalse cfg condition .unresolved)) w id w') :
    Settles t owed (id :: owed) w w' := by
  obtain ⟨rfl, happends⟩ := Appends.jumpIfFalse h
  refine appends hw happends (fun n i hi => ?_) fun k hk => List.mem_cons_of_mem _ hk
  obtain rfl | rfl : n = 0 ∨ n = 1 := by
    have : n < 2 := (List.getElem?_eq_some_iff.mp hi).1
    omega
  · obtain rfl := Option.some.inj hi
    exact Or.inl (.ofNone rfl)
  · exact Or.inr List.mem_cons_self

end Settles

/-! ## Steps

The jumps that a unit is owed are those in its task, so a step is described by its task before
and after (`Keeps`). Only conditionals, loops and events hold jumps at all. -/

/-- The next step of a unit forgets no jump that is owed a target, and a loop knows where it has
started. -/
def WorkUnit.Punctual (length : Nat) (u : WorkUnit) : Prop :=
  match u.task with
  | .conditional _ pending _ => u.step = 0 ∨ u.step % 2 = 1 → pending = none
  | .loop start _ exit => (u.step ≤ 1 → exit = none) ∧ (JumpTarget.after start).Sited length
  | .event skip => u.step = 0 → skip = none
  | _ => True

theorem WorkUnit.Punctual.mono {u : WorkUnit} {n m : Nat} (h : u.Punctual n) (hle : n ≤ m) :
    u.Punctual m := by
  unfold WorkUnit.Punctual at h ⊢
  split at h
  · exact h
  · exact ⟨h.1, h.2.mono hle⟩
  · exact h
  · trivial

theorem WorkUnit.Punctual.start {t : Tree} {id : NodeId} {target : Option String} {u : WorkUnit}
    {w w' : Workspace} {n : Nat} (h : Yields (start t id target) w u w') : u.Punctual n := by
  obtain ⟨-, construct, -, rfl⟩ := start_cases h
  cases construct with
  | conditional => exact fun _ => rfl
  | loop => exact ⟨fun _ => rfl, by rintro _ ⟨⟩⟩
  | event => exact fun _ => rfl
  | _ => trivial

/-- The task may hold jumps that are owed a target. -/
def Task.holdsJumps : Task → Bool
  | .conditional _ _ _ | .loop _ _ _ | .event _ => true
  | _ => false

theorem Task.holdsJumps_initial (task : Task) : task.initial.holdsJumps = task.holdsJumps := by
  cases task <;> rfl

theorem Task.jumps_eq_nil {task : Task} (h : task.holdsJumps = false) : task.jumps = [] := by
  cases task <;> first | rfl | cases h

theorem WorkUnit.Punctual.ofPlain {u : WorkUnit} {n : Nat} (h : u.task.holdsJumps = false) :
    u.Punctual n := by
  unfold WorkUnit.Punctual
  cases htask : u.task <;> rw [htask] at h <;> trivial

section Steps

variable {cfg : Setting} {t : Tree} {owed : List InstructionId} {w w' : Workspace}
  {u u' : WorkUnit} {p : Progress} {n : Nat}

/-- What a step does to targets: the jumps that its unit still holds afterwards are owed theirs. -/
structure Keeps (t : Tree) (u : WorkUnit) (w : Workspace) (p : Progress) (u' : WorkUnit)
    (w' : Workspace) : Prop where
  settles : Settles t u.task.jumps (if p = .done then [] else u'.task.jumps) w w'
  punctual : u'.Punctual w'.assembly.instructions.length

variable (hw : Vocabulary (fun _ => True) t w)

include hw

theorem stepConditional_keeps {condition : Option String} {pending : Option InstructionId}
    {exits : List InstructionId}
    (h : Yields (stepConditional cfg t n u condition pending exits) w (p, u') w')
    (htask : u.task = .conditional condition pending exits) (hstep : u.step = n + 1)
    (hpending : n = 0 ∨ n % 2 = 1 → pending = none) : Keeps t u w p u' w' := by
  have hjumps : u.task.jumps = pending.toList ++ exits := by rw [htask]; rfl
  rcases stepConditional_cases h with ⟨-, rfl, w₁, w₂, u₁, hexits, hends, hrelease, rfl⟩ |
    ⟨branch, -, ⟨hodd, name, jump, w₁, u₁, -, hjump, hrelease, rfl, rfl⟩ |
      ⟨heven, pending', exits', w₁, hends, hnext⟩⟩
  · -- At the end, all jumps that are still waiting get their target.
    have hlast := w.assembly.sited_last
    have hfirst : Settles t u.task.jumps pending.toList w w₁ :=
      .patches hw hexits hlast fun k hk => List.mem_append.mp (hjumps ▸ hk)
    have hsecond : Settles t pending.toList [] w₁ w₂ :=
      .patches hfirst.vocabulary hends (hlast.mono hfirst.grows) fun k hk => Or.inr hk
    obtain ⟨rfl, -⟩ := release_cases hrelease
    refine ⟨(hfirst.trans hsecond).trans (.releases hsecond.vocabulary hrelease), fun _ => rfl⟩
  · -- Nothing is waiting when the jump over the branch is emitted.
    obtain rfl := hpending (Or.inr hodd)
    obtain ⟨rfl, -⟩ := release_cases hrelease
    have hfirst : Settles t u.task.jumps (jump :: exits) w w₁ := by
      rw [hjumps]
      exact .branches hw hjump
    refine ⟨hfirst.trans (.releases hfirst.vocabulary hrelease), fun hwhen => ?_⟩
    have hwhen : u.step = 0 ∨ u.step % 2 = 1 := hwhen
    omega
  · have hfirst : Settles t u.task.jumps exits' w w₁ ∧ pending' = none := by
      rw [hjumps]
      rcases hends with ⟨hzero, rfl, rfl, rfl⟩ | ⟨-, rfl, exit, w₀, rfl, hexit, hpatch⟩
      · obtain rfl := hpending (Or.inl hzero)
        exact ⟨.refl hw, rfl⟩
      · -- The branch before jumps to the end, and the jump over it lands behind that jump.
        obtain ⟨hemitted, hlt⟩ := Settles.owes hw (pending.toList ++ exits) hexit
        refine ⟨hemitted.trans (.patches hemitted.vocabulary hpatch ?_ fun k hk => ?_), rfl⟩
        · intro k hk
          rw [← Option.some.inj hk]
          exact hlt
        · rcases List.mem_cons.mp hk with rfl | hk
          · exact Or.inl (List.mem_append_right _ List.mem_cons_self)
          · exact (List.mem_append.mp hk).symm.imp_left (List.mem_append_left _)
    obtain ⟨hfirst, rfl⟩ := hfirst
    -- Now nothing is pending, whether a test follows or the branch that is left.
    rcases hnext with ⟨-, type, name, hrent, rfl, rfl⟩ | ⟨-, rfl, rfl, rfl⟩
    · exact ⟨hfirst.trans (.rents hfirst.vocabulary hrent), fun _ => rfl⟩
    · exact ⟨hfirst, fun _ => rfl⟩

theorem stepLoop_keeps {start : Option InstructionId} {condition : Option String}
    {exit : Option InstructionId}
    (h : Yields (stepLoop cfg t n u start condition exit) w (p, u') w')
    (htask : u.task = .loop start condition exit) (hstep : u.step = n + 1)
    (hexit : n ≤ 1 → exit = none)
    (hstart : (JumpTarget.after start).Sited w.assembly.instructions.length) :
    Keeps t u w p u' w' := by
  have hjumps : u.task.jumps = exit.toList := by rw [htask]; rfl
  rcases stepLoop_cases h with ⟨rfl, test, type, name, -, hrent, rfl, rfl⟩ |
    ⟨rfl, name, jump, body, w₁, u₁, -, hjump, -, hrelease, rfl, rfl⟩ |
    ⟨hlt, rfl, back, w₁, w₂, hback, hpatch, hrelease⟩
  · have hrents : Settles t u.task.jumps exit.toList w w' := hjumps ▸ .rents hw hrent
    exact ⟨hrents, fun _ => hexit (Nat.zero_le 1), w.assembly.sited_last.mono hrents.grows⟩
  · obtain rfl := hexit (Nat.le_refl 1)
    obtain ⟨rfl, -⟩ := release_cases hrelease
    have hfirst : Settles t u.task.jumps [jump] w w₁ := by
      rw [hjumps]
      exact .branches hw hjump
    have hboth := hfirst.trans (.releases hfirst.vocabulary hrelease)
    refine ⟨hboth, fun hle => ?_, hstart.mono hboth.grows⟩
    have : u.step ≤ 1 := hle
    omega
  · obtain ⟨hfirst, hback'⟩ := Settles.jumpsTo hw u.task.jumps hstart hback
    have hsecond : Settles t u.task.jumps [] w₁ w₂ := by
      refine .patches hfirst.vocabulary hpatch (fun k hk => ?_) fun k hk => Or.inr (hjumps ▸ hk)
      rw [← Option.some.inj hk]
      exact hback'
    obtain ⟨rfl, -⟩ := release_cases hrelease
    have hall := (hfirst.trans hsecond).trans (.releases hsecond.vocabulary hrelease)
    refine ⟨hall, ?_⟩
    unfold WorkUnit.Punctual
    rw [htask]
    refine ⟨fun hle => ?_, hstart.mono hall.grows⟩
    have : u.step ≤ 1 := hle
    omega

theorem stepCall_settles {id : OperationId} {arguments : List Operand}
    (h : Yields (stepCall cfg t n u id arguments) w (p, u') w') : Settles t owed owed w w' := by
  rcases stepCall_cases h with ⟨argument, -, ⟨name, -, -, rfl, -⟩ | ⟨-, type, name, hrent, -, -⟩⟩ |
    ⟨-, -, operands, u₁, w₁, last, w₂, hcompletes, hcall, hrelease⟩
  · exact .refl hw
  · exact .rents hw hrent
  · have hfirst : Settles t owed owed w w₁ := by
      rcases hcompletes with ⟨-, -, -, rfl⟩ | ⟨type, target, -, -, -, -, rfl⟩ |
        ⟨type, name, -, -, -, hrent, -⟩
      · exact .refl hw
      · exact .refl hw
      · exact .rents hw hrent
    have hsecond := hfirst.trans (.calls hfirst.vocabulary hcall)
    exact hsecond.trans (.releases hsecond.vocabulary hrelease)

theorem stepArrayFill_settles {type : TypeId} {slots : Option (String × String)}
    (h : Yields (stepArrayFill cfg t n u type slots) w (p, u') w') : Settles t owed owed w w' := by
  obtain ⟨slots', u₁, w₁, hfills, hends⟩ := stepArrayFill_cases h
  have hfirst : Settles t owed owed w w₁ := by
    rcases hfills with ⟨-, array, scratch, element, elementName, length, id, u₀, w₀, w₂, harray,
      hrent, -, -, hcall⟩ | ⟨array, scratch, index, id, -, -, -, hcall⟩ | ⟨-, -, -, rfl⟩
    · have hready : Settles t owed owed w w₀ := by
        rcases harray with ⟨-, -, rfl⟩ | ⟨-, hrent, -⟩
        · exact .refl hw
        · exact .rents hw hrent
      have hboth := hready.trans (.rents hready.vocabulary hrent)
      exact hboth.trans (.calls hboth.vocabulary hcall)
    · exact .calls hw hcall
    · exact .refl hw
  rcases hends with ⟨element, array, scratch, -, rfl, -, -, -⟩ | ⟨-, hrelease⟩
  · exact hfirst
  · exact hfirst.trans (.releases hfirst.vocabulary hrelease)

theorem stepCast_settles {value : Option String}
    (h : Yields (stepCast cfg t n u value) w (p, u') w') : Settles t owed owed w w' := by
  rcases stepCast_cases h with ⟨-, inner, type, name, -, hrent, -, -⟩ | ⟨-, -, w₁, hcopy, hrelease⟩
  · exact .rents hw hrent
  · have hfirst : Settles t owed owed w w₁ := by
      rcases hcopy with ⟨-, rfl⟩ | ⟨name, -, hcopy⟩
      · exact .refl hw
      · exact .copiesToTarget hw hcopy
    exact hfirst.trans (.releases hfirst.vocabulary hrelease)

omit hw in
/-- A unit whose task never holds a jump owes none. -/
theorem Keeps.ofPlain (hinitial : u'.task.initial = u.task.initial)
    (hplain : u.task.holdsJumps = false) (h : Settles t [] [] w w') : Keeps t u w p u' w' := by
  have hplain' : u'.task.holdsJumps = false := by
    rw [← Task.holdsJumps_initial, hinitial, Task.holdsJumps_initial]
    exact hplain
  refine ⟨?_, .ofPlain hplain'⟩
  rw [Task.jumps_eq_nil hplain, Task.jumps_eq_nil hplain', ite_self]
  exact h

/-- A step of a unit that is none of an event leaves it owing the jumps that it holds, and none at
its end. -/
theorem step_keeps (hpunctual : u.Punctual w.assembly.instructions.length)
    (hevent : u.task.isLocal = true ∨ u.task = .inlineAsm)
    (h : Yields (step cfg t u) w (p, u') w') : Keeps t u w p u' w' := by
  obtain ⟨-, -, hinitial, -⟩ := step_counts h
  obtain ⟨node, target, n, temps, task⟩ := u
  -- Only conditionals and loops hold jumps from one step to the next.
  cases task with
  | literal =>
    refine .ofPlain hinitial rfl ?_
    obtain ⟨-, -, ⟨id, -, hnop⟩ | ⟨target, id, -, hcopy⟩⟩ := stepLiteral_cases h
    · exact .emits hw (.nop hnop) (List.forall_mem_singleton.mpr (.ofNone rfl))
    · exact .copies hw hcopy
  | get =>
    refine .ofPlain hinitial rfl ?_
    obtain ⟨-, -, child, name, found, w₁, -, -, htype, hcopy⟩ := stepGet_cases h
    have hfirst : Settles t [] [] w w₁ := .emits hw (.typeOf? htype) (by simp)
    exact hfirst.trans (.copiesToTarget hfirst.vocabulary hcopy)
  | declare =>
    refine .ofPlain hinitial rfl ?_
    obtain ⟨-, -, ⟨-, rfl⟩ | ⟨child, name, -, -, hcopy⟩⟩ := stepDeclare_cases h
    · exact .refl hw
    · exact .copiesToTarget hw hcopy
  | set =>
    refine .ofPlain hinitial rfl ?_
    obtain ⟨first, name, -, -, ⟨-, child, -, -, -, rfl⟩ | ⟨-, -, w₁, hcopy, hrelease⟩⟩ :=
      stepSet_cases h
    · exact .refl hw
    · have hfirst : Settles t [] [] w w₁ := .copiesToTarget hw hcopy
      exact hfirst.trans (.releases hfirst.vocabulary hrelease)
  | sequence =>
    refine .ofPlain hinitial rfl ?_
    obtain ⟨-, rfl, -⟩ := stepSequence_cases h
    exact .refl hw
  | conditional condition pending exits =>
    have hkeeps := stepConditional_keeps hw h rfl rfl hpunctual
    exact ⟨hkeeps.settles, hkeeps.punctual⟩
  | loop start condition exit =>
    have hkeeps := stepLoop_keeps hw h rfl rfl hpunctual.1 hpunctual.2
    exact ⟨hkeeps.settles, hkeeps.punctual⟩
  | call id arguments => exact .ofPlain hinitial rfl (stepCall_settles hw h)
  | cast value => exact .ofPlain hinitial rfl (stepCast_settles hw h)
  | arrayFill type slots => exact .ofPlain hinitial rfl (stepArrayFill_settles hw h)
  | typeOf type =>
    refine .ofPlain hinitial rfl ?_
    obtain ⟨hcopy, -, -⟩ := step_typeOf_cases h
    exact .copiesToTarget hw hcopy
  | inlineAsm =>
    refine .ofPlain hinitial rfl ?_
    obtain ⟨a, hinline, rfl, -, -⟩ := step_inlineAsm_cases h
    obtain ⟨code, hemits, hcode⟩ := inlineInstructions_emits hinline
    exact .emits hw (.ofEmits hemits) fun i hi => (hcode i hi).sited
  | event skip => rcases hevent with hlocal | heq <;> contradiction
  | callEvent => rcases hevent with hlocal | heq <;> contradiction

end Steps

end SexprAsm
