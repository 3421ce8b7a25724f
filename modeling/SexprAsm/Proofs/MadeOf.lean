import Mathlib.Logic.Relation
import SexprAsm.Proofs.Yields

/-!
# Steps made of changes

A step that fails keeps what it has done before. So what is to hold at every point of a compilation
has to be shown of failures too, and inside steps. `MadeOf change act s` says that all that `act`
does, started in `s`, is a chain of changes, wherever it ends. What every single change keeps is
then kept up to every point of the step.
-/

namespace SexprAsm

open Relation

/-- The state in which a step ends, also if it fails. -/
def endState {ε σ α : Type} (act : EStateM ε σ α) (s : σ) : σ :=
  match act s with
  | .ok _ s' => s'
  | .error _ s' => s'

/-- A step does nothing but a chain of changes. -/
def MadeOf {ε σ α : Type} (change : σ → σ → Prop) (act : EStateM ε σ α) (s : σ) : Prop :=
  ReflTransGen change s (endState act s)

section Outcomes

variable {ε σ α β : Type} {act : EStateM ε σ α} {next : α → EStateM ε σ β} {s s' : σ} {a : α}

theorem Yields.endState_eq (h : Yields act s a s') : endState act s = s' := by
  unfold endState
  rw [h]

/-- A sequence of steps ends where the second one does, or where the first one fails. -/
theorem endState_bind (act : EStateM ε σ α) (next : α → EStateM ε σ β) (s : σ) :
    (∃ a s', Yields act s a s' ∧ endState (act >>= next) s = endState (next a) s') ∨
      endState (act >>= next) s = endState act s := by
  have hbind : (act >>= next) s = EStateM.bind act next s := rfl
  unfold endState
  rw [hbind, EStateM.bind]
  cases h : act s with
  | ok a s' => exact Or.inl ⟨a, s', h, rfl⟩
  | error e s' => exact Or.inr rfl

/-- A step that has been run gives its result. -/
theorem exists_yields {p : α → Bool}
    (h : (match act s with
      | .ok a _ => p a
      | .error _ _ => false) = true) : ∃ a s', Yields act s a s' ∧ p a = true := by
  split at h
  next a s' hact => exact ⟨a, s', hact, h⟩
  next => cases h

theorem endState_of_error {e : ε} (h : act s = .error e s') : endState act s = s' := by
  unfold endState
  rw [h]

theorem bind_of_yields (h : Yields act s a s') : (act >>= next) s = next a s' := by
  show EStateM.bind act next s = _
  unfold EStateM.bind
  rw [h]

theorem bind_of_error {e : ε} (h : act s = .error e s') : (act >>= next) s = .error e s' := by
  show EStateM.bind act next s = _
  unfold EStateM.bind
  rw [h]

/-- A sequence of steps fails in the first one or in the second. -/
theorem bind_error_cases {e : ε} (h : (act >>= next) s = .error e s') :
    act s = .error e s' ∨ ∃ a s₁, Yields act s a s₁ ∧ next a s₁ = .error e s' := by
  have hbind : (act >>= next) s = EStateM.bind act next s := rfl
  rw [hbind, EStateM.bind] at h
  cases hact : act s with
  | ok a s₁ =>
    rw [hact] at h
    exact Or.inr ⟨a, s₁, hact, h⟩
  | error e' s₁ =>
    rw [hact] at h
    cases h
    exact Or.inl rfl

end Outcomes

namespace MadeOf

variable {ε ε' σ α β : Type} {change : σ → σ → Prop} {act : EStateM ε σ α} {s s' : σ}

theorem of_yields {a : α} (h : MadeOf change act s) (hact : Yields act s a s') :
    ReflTransGen change s s' :=
  hact.endState_eq ▸ h

theorem of_error {e : ε} (h : MadeOf change act s) (hact : act s = .error e s') :
    ReflTransGen change s s' :=
  endState_of_error hact ▸ h

theorem pure (a : α) : MadeOf change (Pure.pure a : EStateM ε σ α) s := .refl

theorem throw (e : ε) : MadeOf change (MonadExcept.throw e : EStateM ε σ α) s := .refl

/-- What would follow a failure is not done. -/
theorem throw_bind (e : ε) (next : α → EStateM ε σ β) :
    MadeOf change (MonadExcept.throw e >>= next) s := .refl

theorem check (refused : Prop) [Decidable refused] (e : ε) (a : α) :
    MadeOf change (if refused then MonadExcept.throw e else Pure.pure a : EStateM ε σ α) s := by
  split
  · exact throw e
  · exact pure a

theorem get : MadeOf change (MonadState.get : EStateM ε σ σ) s := .refl

theorem set (h : change s s') : MadeOf change (MonadStateOf.set s' : EStateM ε σ PUnit) s :=
  .single h

theorem modify {f : σ → σ} (h : change s (f s)) :
    MadeOf change (modify f : EStateM ε σ PUnit) s := .single h

theorem bind {next : α → EStateM ε σ β} (h : MadeOf change act s)
    (hnext : ∀ a s', Yields act s a s' → MadeOf change (next a) s') :
    MadeOf change (act >>= next) s := by
  unfold MadeOf
  rcases endState_bind act next s with ⟨a, s', hact, heq⟩ | heq
  · rw [heq]
    exact (h.of_yields hact).trans (hnext a s' hact)
  · rw [heq]
    exact h

theorem mono {change' : σ → σ → Prop} (h : MadeOf change act s)
    (hchange : ∀ s s', change s s' → change' s s') : MadeOf change' act s :=
  ReflTransGen.mono hchange _ _ h

theorem adaptExcept {f : ε → ε'} (h : MadeOf change act s) :
    MadeOf change (act.adaptExcept f) s := by
  have heq : endState (act.adaptExcept f) s = endState act s := by
    unfold endState EStateM.adaptExcept
    cases act s <;> rfl
  unfold MadeOf
  rw [heq]
  exact h

end MadeOf

/-! ## Steps inside larger states -/

section Inside

variable {α : Type} {w : Workspace}

/-- An operation on the heap that fails changes nothing. -/
theorem Emit.onHeap_error {act : Heap → Except BuildError (α × Heap)} {a a' : Assembly}
    {e : BuildError} (h : Emit.onHeap act a = .error e a') : a' = a := by
  unfold Emit.onHeap at h
  split at h
  · cases h
  · cases h
    rfl

theorem Build.emit_error {act : Emit α} {w' : Workspace} {e : BuildError}
    (h : Build.emit act w = .error e w') :
    ∃ a, act w.assembly = .error e a ∧ w' = { w with assembly := a } := by
  unfold Build.emit at h
  split at h
  next => cases h
  next e' a hact =>
    cases h
    exact ⟨a, hact, rfl⟩

theorem MadeOf.onHeap {change : Assembly → Assembly → Prop} {a : Assembly}
    {act : Heap → Except BuildError (α × Heap)}
    (h : ∀ r heap, act a.heap = .ok (r, heap) → ReflTransGen change a { a with heap := heap }) :
    MadeOf change (Emit.onHeap act) a := by
  unfold MadeOf endState Emit.onHeap
  cases hact : act a.heap with
  | ok r => exact h r.1 r.2 hact
  | error e => exact .refl

theorem MadeOf.define {change : Assembly → Assembly → Prop} {cfg : Setting} {a : Assembly}
    {name : String} {type : Option TypeId} {attributes : Attributes} {value : Option Value}
    (h : ∀ heap, a.heap.define cfg.catalog name type attributes value = .ok heap →
      change a { a with heap := heap }) :
    MadeOf change (Emit.define cfg name type attributes value) a := by
  refine .onHeap fun r heap hdefine => ?_
  cases hok : a.heap.define cfg.catalog name type attributes value with
  | error e => simp [hok, Except.map] at hdefine
  | ok heap' =>
    simp only [hok, Except.map, Except.ok.injEq, Prod.mk.injEq] at hdefine
    obtain ⟨-, rfl⟩ := hdefine
    exact .single (h _ hok)

theorem MadeOf.emit {change : Assembly → Assembly → Prop} {change' : Workspace → Workspace → Prop}
    {act : Emit α}
    (hchange : ∀ a a', change a a' → change' { w with assembly := a } { w with assembly := a' })
    (h : MadeOf change act w.assembly) : MadeOf change' (Build.emit act) w := by
  have heq : endState (Build.emit act) w = { w with assembly := endState act w.assembly } := by
    unfold endState Build.emit
    cases act w.assembly <;> rfl
  unfold MadeOf
  rw [heq]
  exact ReflTransGen.lift (fun a => ({ w with assembly := a } : Workspace)) hchange _ _ h

theorem MadeOf.build {change : Workspace → Workspace → Prop} {act : Build α}
    (h : MadeOf change act w) : MadeOf change (Compile.build act) w :=
  h.adaptExcept

theorem MadeOf.at {change : Workspace → Workspace → Prop} {act : Compile α} {id : NodeId}
    (h : MadeOf change act w) : MadeOf change (Compilation.at id act) w :=
  h.adaptExcept

end Inside

end SexprAsm
