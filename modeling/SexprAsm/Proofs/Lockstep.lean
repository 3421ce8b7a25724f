import SexprAsm.Proofs.MadeOf

/-!
# Two runs in lockstep

`Lockstep` is a statement about two runs of steps from any two states that go together. They end
alike: both succeed, the second one with the translated result and in a state that goes with that of
the first, or both fail, the second one with the translated error. Unlike `Echoed` it speaks of
failures too, and the runs may speak of different nodes.

Running one step after another keeps the statement (`Lockstep.bind`).
-/

namespace SexprAsm

/-- From states that go together, both succeed, with corresponding results and states, or both fail,
with corresponding errors. -/
def Lockstep {ε σ α β : Type} (alike : σ → σ → Prop) (error : ε → ε) (result : α → β)
    (act : EStateM ε σ α) (act' : EStateM ε σ β) : Prop :=
  ∀ s s', alike s s' →
    (∃ a s₁ s₁', Yields act s a s₁ ∧ Yields act' s' (result a) s₁' ∧ alike s₁ s₁') ∨
      ∃ e s₁ s₁', act s = .error e s₁ ∧ act' s' = .error (error e) s₁'

namespace Lockstep

variable {ε σ α β γ δ : Type} {alike : σ → σ → Prop} {error : ε → ε}
  {act : EStateM ε σ α} {act' : EStateM ε σ β} {result : α → β} {result' : γ → δ}

theorem pure {a : α} {b : β} (hb : b = result a) :
    Lockstep alike error result (Pure.pure a) (Pure.pure b) :=
  fun s s' h => Or.inl ⟨a, s, s', rfl, by rw [hb]; rfl, h⟩

theorem throw {e e' : ε} (he : e' = error e) :
    Lockstep alike error result (MonadExcept.throw e) (MonadExcept.throw e') :=
  fun s s' _ => Or.inr ⟨e, s, s', rfl, by rw [he]; rfl⟩

theorem bind {next : α → EStateM ε σ γ} {next' : β → EStateM ε σ δ}
    (h : Lockstep alike error result act act')
    (hnext : ∀ a, Lockstep alike error result' (next a) (next' (result a))) :
    Lockstep alike error result' (act >>= next) (act' >>= next') := by
  intro s s' hs
  rcases h s s' hs with ⟨a, s₁, s₁', hact, hact', hs₁⟩ | ⟨e, s₁, s₁', hact, hact'⟩
  · rcases hnext a s₁ s₁' hs₁ with
      ⟨c, s₂, s₂', hnext, hnext', hs₂⟩ | ⟨e, s₂, s₂', hnext, hnext'⟩
    · exact Or.inl ⟨c, s₂, s₂', Yields.bind_iff.mpr ⟨a, s₁, hact, hnext⟩,
        Yields.bind_iff.mpr ⟨result a, s₁', hact', hnext'⟩, hs₂⟩
    · refine Or.inr ⟨e, s₂, s₂', ?_, ?_⟩
      · rw [bind_of_yields hact, hnext]
      · rw [bind_of_yields hact', hnext']
  · exact Or.inr ⟨e, s₁, s₁', bind_of_error hact, bind_of_error hact'⟩

/-- Each run reads its own state. -/
theorem get_bind {next : σ → EStateM ε σ γ} {next' : σ → EStateM ε σ δ}
    (h : ∀ s s', alike s s' → Lockstep alike error result' (next s) (next' s')) :
    Lockstep alike error result' (get >>= next) (get >>= next') :=
  fun s s' hs => h s s' hs s s' hs

theorem modify {f f' : σ → σ} (h : ∀ s s', alike s s' → alike (f s) (f' s')) :
    Lockstep alike error id (modify f) (modify f') :=
  fun s s' hs => Or.inl ⟨⟨⟩, f s, f' s', rfl, rfl, h s s' hs⟩

theorem adaptExcept {ε' : Type} {error' : ε' → ε'} {f f' : ε → ε'}
    (h : Lockstep alike error result act act') (hf : ∀ e, f' (error e) = error' (f e)) :
    Lockstep alike error' result (act.adaptExcept f) (act'.adaptExcept f') := by
  intro s s' hs
  rcases h s s' hs with ⟨a, s₁, s₁', hact, hact', hs₁⟩ | ⟨e, s₁, s₁', hact, hact'⟩
  · exact Or.inl ⟨a, s₁, s₁', Yields.adaptExcept_iff.mpr hact, Yields.adaptExcept_iff.mpr hact',
      hs₁⟩
  · refine Or.inr ⟨f e, s₁, s₁', ?_, ?_⟩
    · rw [EStateM.adaptExcept, hact]
    · rw [EStateM.adaptExcept, hact', ← hf]

end Lockstep

end SexprAsm
