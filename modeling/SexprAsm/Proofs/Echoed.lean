import SexprAsm.Proofs.Yields

/-!
# Two runs side by side

`Echoed` is a statement about two runs of steps on a state: whenever the first one succeeds, so does
the second one, with the same result, and the states that they end in go together. Which states go
together, and what a run keeps of the state it started in, is given by a `Bond`.

Running one step after another keeps the statement (`Echoed.bind`), so it is enough to prove it of
the operations that steps are made of.
-/

namespace SexprAsm

/-- Which states of two runs go together, and what the first run keeps of an earlier state. -/
structure Bond (σ : Type) where
  alike : σ → σ → Prop
  keeps : σ → σ → Prop
  refl : ∀ s, keeps s s
  trans : ∀ s s' s'', keeps s s' → keeps s' s'' → keeps s s''

/-- If `act` succeeds from `s`, then `act'` succeeds from `s'` with the same result, and the states
that they end in go together. -/
def Echoed {ε σ α : Type} (bond : Bond σ) (act : EStateM ε σ α) (s : σ) (act' : EStateM ε σ α)
    (s' : σ) (P : α → σ → Prop) : Prop :=
  ∀ a s₁, Yields act s a s₁ →
    ∃ s₁', Yields act' s' a s₁' ∧ bond.alike s₁ s₁' ∧ bond.keeps s s₁ ∧ P a s₁

namespace Echoed

variable {ε σ α β : Type} {bond : Bond σ} {s s' : σ}

theorem pure {a : α} {P : α → σ → Prop} (h : bond.alike s s') (hP : P a s) :
    Echoed (ε := ε) bond (Pure.pure a) s (Pure.pure a) s' P := by
  intro b s₁ hyields
  obtain ⟨rfl, rfl⟩ := Yields.pure_iff.mp hyields
  exact ⟨s', Yields.pure_iff.mpr ⟨rfl, rfl⟩, h, bond.refl s, hP⟩

theorem throw {e : ε} {act' : EStateM ε σ α} {P : α → σ → Prop} :
    Echoed bond (MonadExcept.throw e) s act' s' P := by
  intro a s₁ hyields
  exact (Yields.throw_iff.mp hyields).elim

theorem bind {act act' : EStateM ε σ α} {next next' : α → EStateM ε σ β} {Q : α → σ → Prop}
    {P : β → σ → Prop} (h : Echoed bond act s act' s' Q)
    (hnext : ∀ a s₁ s₁', bond.alike s₁ s₁' → bond.keeps s s₁ → Q a s₁ →
      Echoed bond (next a) s₁ (next' a) s₁' P) :
    Echoed bond (act >>= next) s (act' >>= next') s' P := by
  intro b s₂ hyields
  obtain ⟨a, s₁, hact, hrest⟩ := Yields.bind_iff.mp hyields
  obtain ⟨s₁', hact', halike, hkeeps, hQ⟩ := h a s₁ hact
  obtain ⟨s₂', hrest', halike', hkeeps', hP⟩ := hnext a s₁ s₁' halike hkeeps hQ b s₂ hrest
  exact ⟨s₂', Yields.bind_iff.mpr ⟨a, s₁', hact', hrest'⟩, halike', bond.trans s s₁ s₂ hkeeps hkeeps',
    hP⟩

/-- Reading the state gives each run its own. -/
theorem get_bind {next next' : σ → EStateM ε σ β} {P : β → σ → Prop}
    (h : Echoed bond (next s) s (next' s') s' P) :
    Echoed bond (get >>= next) s (get >>= next') s' P := by
  intro b s₁ hyields
  obtain ⟨_, _, hget, hrest⟩ := Yields.bind_iff.mp hyields
  obtain ⟨rfl, rfl⟩ := Yields.get_iff.mp hget
  obtain ⟨s₁', hrest', hP⟩ := h b s₁ hrest
  exact ⟨s₁', Yields.bind_iff.mpr ⟨s', s', Yields.get_iff.mpr ⟨rfl, rfl⟩, hrest'⟩, hP⟩

theorem modify {f : σ → σ} {P : PUnit → σ → Prop} (halike : bond.alike (f s) (f s'))
    (hkeeps : bond.keeps s (f s)) (hP : P ⟨⟩ (f s)) :
    Echoed (ε := ε) bond (modify f) s (modify f) s' P := by
  intro _ s₁ hyields
  obtain rfl := Yields.modify_iff.mp hyields
  exact ⟨f s', Yields.modify_iff.mpr rfl, halike, hkeeps, hP⟩

theorem imp {act act' : EStateM ε σ α} {P P' : α → σ → Prop}
    (h : Echoed bond act s act' s' P) (himp : ∀ a s₁, bond.keeps s s₁ → P a s₁ → P' a s₁) :
    Echoed bond act s act' s' P' := by
  intro a s₁ hyields
  obtain ⟨s₁', hyields', halike, hkeeps, hP⟩ := h a s₁ hyields
  exact ⟨s₁', hyields', halike, hkeeps, himp a s₁ hkeeps hP⟩

theorem adaptExcept {ε' : Type} {f : ε → ε'} {act act' : EStateM ε σ α} {P : α → σ → Prop}
    (h : Echoed bond act s act' s' P) :
    Echoed bond (act.adaptExcept f) s (act'.adaptExcept f) s' P := by
  intro a s₁ hyields
  obtain ⟨s₁', hyields', hP⟩ := h a s₁ (Yields.adaptExcept_iff.mp hyields)
  exact ⟨s₁', Yields.adaptExcept_iff.mpr hyields', hP⟩

end Echoed

end SexprAsm
