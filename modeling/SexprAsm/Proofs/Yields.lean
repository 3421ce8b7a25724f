import SexprAsm.Generation

/-!
# Steps that succeed

Emitting, building and compiling are all steps on a state that may fail. `Yields act s a s'` says
that `act`, started in `s`, returns `a` and ends in `s'`. The lemmas of this module take a
composite step that succeeded apart into the parts that did, so that what a step does can be read
off without unfolding it.
-/

namespace SexprAsm

/-- A step returns a result and ends in a state. -/
def Yields {ε σ α : Type} (act : EStateM ε σ α) (s : σ) (a : α) (s' : σ) : Prop :=
  act s = .ok a s'

namespace Yields

variable {ε σ α β : Type} {s s' : σ} {a : α} {b : β}

@[simp]
theorem bind_iff {act : EStateM ε σ α} {next : α → EStateM ε σ β} {s'' : σ} :
    Yields (act >>= next) s b s'' ↔ ∃ a s', Yields act s a s' ∧ Yields (next a) s' b s'' := by
  unfold Yields
  show EStateM.bind act next s = _ ↔ _
  unfold EStateM.bind
  cases h : act s with
  | ok a s' =>
    constructor
    · intro hnext
      exact ⟨a, s', rfl, hnext⟩
    · rintro ⟨_, _, hact, hnext⟩
      obtain ⟨rfl, rfl⟩ := EStateM.Result.ok.inj hact
      exact hnext
  | error e s' => simp

@[simp]
theorem pure_iff {r : α} : Yields (pure a : EStateM ε σ α) s r s' ↔ a = r ∧ s = s' := by
  show EStateM.Result.ok a s = .ok r s' ↔ _
  rw [EStateM.Result.ok.injEq]

@[simp]
theorem map_iff {f : α → β} {act : EStateM ε σ α} :
    Yields (f <$> act) s b s' ↔ ∃ a, Yields act s a s' ∧ b = f a := by
  unfold Yields
  show EStateM.map f act s = _ ↔ _
  unfold EStateM.map
  cases h : act s with
  | ok a s'' =>
    simp only [EStateM.Result.ok.injEq]
    constructor
    · rintro ⟨rfl, rfl⟩
      exact ⟨a, ⟨rfl, rfl⟩, rfl⟩
    · rintro ⟨_, ⟨rfl, rfl⟩, rfl⟩
      exact ⟨rfl, rfl⟩
  | error e s'' => simp

@[simp]
theorem get_iff {r : σ} : Yields (get : EStateM ε σ σ) s r s' ↔ s = r ∧ s = s' := by
  show EStateM.Result.ok s s = .ok r s' ↔ _
  rw [EStateM.Result.ok.injEq]

@[simp]
theorem set_iff {r : σ} {u : PUnit} : Yields (set r : EStateM ε σ PUnit) s u s' ↔ r = s' := by
  show EStateM.Result.ok PUnit.unit r = .ok u s' ↔ _
  rw [EStateM.Result.ok.injEq]
  exact and_iff_right rfl

@[simp]
theorem modify_iff {f : σ → σ} {u : PUnit} :
    Yields (modify f : EStateM ε σ PUnit) s u s' ↔ f s = s' := by
  show EStateM.Result.ok PUnit.unit (f s) = .ok u s' ↔ _
  rw [EStateM.Result.ok.injEq]
  exact and_iff_right rfl

@[simp]
theorem throw_iff {e : ε} : Yields (throw e : EStateM ε σ α) s a s' ↔ False := by
  show EStateM.Result.error e s = .ok a s' ↔ _
  simp

/-- A check that passes leaves the state as it is. -/
theorem eq_of_check {refused : Prop} [Decidable refused] {e : ε}
    (h : Yields (if refused then throw e else pure a : EStateM ε σ α) s a s') : s = s' := by
  split at h
  next => exact (throw_iff.mp h).elim
  next => exact (pure_iff.mp h).2

theorem unique {act : EStateM ε σ α} {a' : α} {s'' : σ} (h : Yields act s a s')
    (h' : Yields act s a' s'') : a' = a ∧ s'' = s' := by
  have := h'.symm.trans h
  simpa using this

end Yields

/-! ## Steps inside larger states -/

variable {α : Type} {a : α}

@[simp]
theorem Emit.onHeap_iff {act : Heap → Except BuildError (α × Heap)} {s s' : Assembly} :
    Yields (Emit.onHeap act) s a s' ↔
      ∃ heap, act s.heap = .ok (a, heap) ∧ s' = { s with heap := heap } := by
  unfold Yields Emit.onHeap
  cases h : act s.heap with
  | ok r =>
    obtain ⟨r, heap⟩ := r
    simp only [EStateM.Result.ok.injEq, Except.ok.injEq, Prod.mk.injEq]
    constructor
    · rintro ⟨rfl, rfl⟩
      exact ⟨heap, ⟨rfl, rfl⟩, rfl⟩
    · rintro ⟨_, ⟨rfl, rfl⟩, rfl⟩
      exact ⟨rfl, rfl⟩
  | error e => simp

@[simp]
theorem Build.emit_iff {act : Emit α} {w w' : Workspace} :
    Yields (Build.emit act) w a w' ↔
      ∃ s, Yields act w.assembly a s ∧ w' = { w with assembly := s } := by
  unfold Yields Build.emit
  cases h : act w.assembly with
  | ok r s =>
    simp only [EStateM.Result.ok.injEq]
    constructor
    · rintro ⟨rfl, rfl⟩
      exact ⟨s, ⟨rfl, rfl⟩, rfl⟩
    · rintro ⟨_, ⟨rfl, rfl⟩, rfl⟩
      exact ⟨rfl, rfl⟩
  | error e s => simp

theorem Yields.adaptExcept_iff {ε ε' σ : Type} {f : ε → ε'} {act : EStateM ε σ α} {s s' : σ} :
    Yields (act.adaptExcept f) s a s' ↔ Yields act s a s' := by
  unfold Yields EStateM.adaptExcept
  cases h : act s with
  | ok r s'' => simp
  | error e s'' => simp

@[simp]
theorem Compile.build_iff {act : Build α} {w w' : Workspace} :
    Yields (Compile.build act) w a w' ↔ Yields act w a w' :=
  Yields.adaptExcept_iff

@[simp]
theorem Compile.emit_iff {act : Emit α} {w w' : Workspace} :
    Yields (Compile.emit act) w a w' ↔
      ∃ s, Yields act w.assembly a s ∧ w' = { w with assembly := s } :=
  Compile.build_iff.trans Build.emit_iff

@[simp]
theorem Compilation.at_iff {id : NodeId} {act : Compile α} {w w' : Workspace} :
    Yields (Compilation.at id act) w a w' ↔ Yields act w a w' :=
  Yields.adaptExcept_iff

end SexprAsm
