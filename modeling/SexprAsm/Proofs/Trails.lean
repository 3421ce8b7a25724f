import SexprAsm.Proofs.Echoed
import SexprAsm.Proofs.MadeOf

/-!
# One run after the other

`Trails` is a statement about two runs of steps on a state that do similar things in different
states: whenever the first one succeeds, so does the second one, unless it fails in a way that is
excused, and the states and results that they end with go together. Unlike `Echoed`, it relates the
results, and it tells what both runs keep of the states they started in.

The runs need not take the same steps: one of them may take some steps of its own, before the other
one goes on or after it is done (`Trails.before_second` and so on).
-/

namespace SexprAsm

/-- If `act` succeeds from `s`, then `act'` succeeds from `s'` with a result to match, or fails with
an error that is excused. -/
def Trails {ε σ α β : Type} (bond : Bond σ) (excused : ε → Prop) (act : EStateM ε σ α) (s : σ)
    (act' : EStateM ε σ β) (s' : σ) (P : α → β → σ → σ → Prop) : Prop :=
  ∀ a s₁, Yields act s a s₁ →
    (∃ b s₁', Yields act' s' b s₁' ∧ bond.alike s₁ s₁' ∧ bond.keeps s s₁ ∧ bond.keeps s' s₁' ∧
      P a b s₁ s₁') ∨
    ∃ e s₁', act' s' = .error e s₁' ∧ excused e

namespace Trails

variable {ε σ α β γ δ : Type} {bond : Bond σ} {excused : ε → Prop} {s s' : σ}
  {act : EStateM ε σ α} {act' : EStateM ε σ β}

theorem pure {a : α} {b : β} {P : α → β → σ → σ → Prop} (h : bond.alike s s') (hP : P a b s s') :
    Trails bond excused (Pure.pure a) s (Pure.pure b) s' P := by
  intro r s₁ hyields
  obtain ⟨rfl, rfl⟩ := Yields.pure_iff.mp hyields
  exact Or.inl ⟨b, s', rfl, h, bond.refl s, bond.refl s', hP⟩

theorem throw {e : ε} {P : α → β → σ → σ → Prop} :
    Trails bond excused (MonadExcept.throw e) s act' s' P := by
  intro a s₁ hyields
  exact (Yields.throw_iff.mp hyields).elim

theorem throw_bind {e : ε} {next : α → EStateM ε σ γ} {act' : EStateM ε σ δ}
    {P : γ → δ → σ → σ → Prop} :
    Trails bond excused (MonadExcept.throw e >>= next) s act' s' P := by
  intro a s₁ hyields
  obtain ⟨_, _, hthrow, -⟩ := Yields.bind_iff.mp hyields
  exact (Yields.throw_iff.mp hthrow).elim

/-- The second run fails, and is excused. -/
theorem fail {e : ε} {P : α → β → σ → σ → Prop} (he : excused e) :
    Trails bond excused act s (MonadExcept.throw e : EStateM ε σ β) s' P :=
  fun _ _ _ => Or.inr ⟨e, s', rfl, he⟩

/-- Both runs are known to succeed. -/
theorem of_yields {a : α} {b : β} {s₁ s₁' : σ} {P : α → β → σ → σ → Prop}
    (hact : Yields act s a s₁) (hact' : Yields act' s' b s₁') (halike : bond.alike s₁ s₁')
    (hkeeps : bond.keeps s s₁) (hkeeps' : bond.keeps s' s₁') (hP : P a b s₁ s₁') :
    Trails bond excused act s act' s' P := by
  intro r s₂ hyields
  obtain ⟨rfl, rfl⟩ := hact.unique hyields
  exact Or.inl ⟨b, s₁', hact', halike, hkeeps, hkeeps', hP⟩

theorem bind {next : α → EStateM ε σ γ} {next' : β → EStateM ε σ δ} {Q : α → β → σ → σ → Prop}
    {P : γ → δ → σ → σ → Prop} (h : Trails bond excused act s act' s' Q)
    (hnext : ∀ a b s₁ s₁', bond.alike s₁ s₁' → bond.keeps s s₁ → bond.keeps s' s₁' →
      Q a b s₁ s₁' → Trails bond excused (next a) s₁ (next' b) s₁' P) :
    Trails bond excused (act >>= next) s (act' >>= next') s' P := by
  intro c s₂ hyields
  obtain ⟨a, s₁, hact, hrest⟩ := Yields.bind_iff.mp hyields
  rcases h a s₁ hact with ⟨b, s₁', hact', halike, hkeeps, hkeeps', hQ⟩ | ⟨e, s₁', hact', he⟩
  · rcases hnext a b s₁ s₁' halike hkeeps hkeeps' hQ c s₂ hrest with
      ⟨d, s₂', hrest', halike₂, hkeeps₂, hkeeps₂', hP⟩ | ⟨e, s₂', hrest', he⟩
    · exact Or.inl ⟨d, s₂', Yields.bind_iff.mpr ⟨b, s₁', hact', hrest'⟩, halike₂,
        bond.trans s s₁ s₂ hkeeps hkeeps₂, bond.trans s' s₁' s₂' hkeeps' hkeeps₂', hP⟩
    · exact Or.inr ⟨e, s₂', by rw [bind_of_yields hact', hrest'], he⟩
  · exact Or.inr ⟨e, s₁', bind_of_error hact', he⟩

/-- Each run reads its own state. -/
theorem get_bind {next : σ → EStateM ε σ γ} {next' : σ → EStateM ε σ δ}
    {P : γ → δ → σ → σ → Prop} (h : Trails bond excused (next s) s (next' s') s' P) :
    Trails bond excused (get >>= next) s (get >>= next') s' P := by
  intro c s₁ hyields
  obtain ⟨_, _, hget, hrest⟩ := Yields.bind_iff.mp hyields
  obtain ⟨rfl, rfl⟩ := Yields.get_iff.mp hget
  exact h c s₁ hrest

theorem modify {f f' : σ → σ} {P : PUnit → PUnit → σ → σ → Prop} (halike : bond.alike (f s) (f' s'))
    (hkeeps : bond.keeps s (f s)) (hkeeps' : bond.keeps s' (f' s')) (hP : P ⟨⟩ ⟨⟩ (f s) (f' s')) :
    Trails bond excused (modify f) s (modify f') s' P := by
  intro _ s₁ hyields
  obtain rfl := Yields.modify_iff.mp hyields
  exact Or.inl ⟨⟨⟩, f' s', rfl, halike, hkeeps, hkeeps', hP⟩

/-- Runs that do the same take the places of the two runs. -/
theorem congr {act₁ : EStateM ε σ α} {act₁' : EStateM ε σ β} {P : α → β → σ → σ → Prop}
    (hact : act₁ s = act s) (hact' : act₁' s' = act' s')
    (h : Trails bond excused act s act' s' P) : Trails bond excused act₁ s act₁' s' P := by
  intro a s₁ hyields
  rw [Yields, hact] at hyields
  simpa only [Yields, hact'] using h a s₁ hyields

theorem imp {P P' : α → β → σ → σ → Prop} (h : Trails bond excused act s act' s' P)
    (himp : ∀ a b s₁ s₁', bond.alike s₁ s₁' → bond.keeps s s₁ → bond.keeps s' s₁' →
      P a b s₁ s₁' → P' a b s₁ s₁') :
    Trails bond excused act s act' s' P' := by
  intro a s₁ hyields
  refine (h a s₁ hyields).imp_left ?_
  rintro ⟨b, s₁', hyields', halike, hkeeps, hkeeps', hP⟩
  exact ⟨b, s₁', hyields', halike, hkeeps, hkeeps', himp a b s₁ s₁' halike hkeeps hkeeps' hP⟩

/-- What the first run does may be used. -/
theorem with_first {P : α → β → σ → σ → Prop} (h : Trails bond excused act s act' s' P) :
    Trails bond excused act s act' s' fun a b s₁ s₁' => Yields act s a s₁ ∧ P a b s₁ s₁' := by
  intro a s₁ hyields
  refine (h a s₁ hyields).imp_left ?_
  rintro ⟨b, s₁', hyields', halike, hkeeps, hkeeps', hP⟩
  exact ⟨b, s₁', hyields', halike, hkeeps, hkeeps', hyields, hP⟩

/-- What the two runs do may be used. -/
theorem with_both {P : α → β → σ → σ → Prop} (h : Trails bond excused act s act' s' P) :
    Trails bond excused act s act' s' fun a b s₁ s₁' =>
      Yields act s a s₁ ∧ Yields act' s' b s₁' ∧ P a b s₁ s₁' := by
  intro a s₁ hyields
  refine (h a s₁ hyields).imp_left ?_
  rintro ⟨b, s₁', hyields', halike, hkeeps, hkeeps', hP⟩
  exact ⟨b, s₁', hyields', halike, hkeeps, hkeeps', hyields, hyields', hP⟩

theorem adaptExcept {ε' : Type} {f f' : ε → ε'} {excused' : ε' → Prop} {P : α → β → σ → σ → Prop}
    (h : Trails bond excused act s act' s' P) (hf : ∀ e, excused e → excused' (f' e)) :
    Trails bond excused' (act.adaptExcept f) s (act'.adaptExcept f') s' P := by
  intro a s₁ hyields
  rcases h a s₁ (Yields.adaptExcept_iff.mp hyields) with ⟨b, s₁', hact', hP⟩ | ⟨e, s₁', hact', he⟩
  · exact Or.inl ⟨b, s₁', Yields.adaptExcept_iff.mpr hact', hP⟩
  · exact Or.inr ⟨f' e, s₁', by rw [EStateM.adaptExcept, hact'], hf e he⟩

/-! ## Steps of one run alone -/

/-- The second run does something before the first one goes on. -/
theorem before_second {next' : β → EStateM ε σ δ} {b : β} {s₁' : σ} {P : α → δ → σ → σ → Prop}
    (hact' : Yields act' s' b s₁') (hkeeps' : bond.keeps s' s₁')
    (h : Trails bond excused act s (next' b) s₁' P) :
    Trails bond excused act s (act' >>= next') s' P := by
  intro a s₁ hyields
  rcases h a s₁ hyields with ⟨d, s₂', hnext', halike, hkeeps, hkeeps₂', hP⟩ | ⟨e, s₂', hnext', he⟩
  · exact Or.inl ⟨d, s₂', Yields.bind_iff.mpr ⟨b, s₁', hact', hnext'⟩, halike, hkeeps,
      bond.trans s' s₁' s₂' hkeeps' hkeeps₂', hP⟩
  · exact Or.inr ⟨e, s₂', by rw [bind_of_yields hact', hnext'], he⟩

/-- The second run does something when the first one is done. -/
theorem after_second {next' : β → EStateM ε σ δ} {Q : α → β → σ → σ → Prop}
    {P : α → δ → σ → σ → Prop} (h : Trails bond excused act s act' s' Q)
    (hnext : ∀ a b s₁ s₁', bond.alike s₁ s₁' → bond.keeps s s₁ → bond.keeps s' s₁' →
      Q a b s₁ s₁' → Trails bond excused (Pure.pure a : EStateM ε σ α) s₁ (next' b) s₁' P) :
    Trails bond excused act s (act' >>= next') s' P := by
  rw [← bind_pure act]
  exact h.bind hnext

/-- The first run does something before the second one goes on. -/
theorem before_first {next : α → EStateM ε σ γ} {P : γ → β → σ → σ → Prop}
    (h : ∀ a s₁, Yields act s a s₁ → bond.keeps s s₁ ∧ Trails bond excused (next a) s₁ act' s' P) :
    Trails bond excused (act >>= next) s act' s' P := by
  intro c s₂ hyields
  obtain ⟨a, s₁, hact, hrest⟩ := Yields.bind_iff.mp hyields
  obtain ⟨hkeeps, hfollows⟩ := h a s₁ hact
  refine (hfollows c s₂ hrest).imp_left ?_
  rintro ⟨b, s₁', hact', halike, hkeeps₂, hkeeps', hP⟩
  exact ⟨b, s₁', hact', halike, bond.trans s s₁ s₂ hkeeps hkeeps₂, hkeeps', hP⟩

/-- The first run does something when the second one is done. -/
theorem after_first {next : α → EStateM ε σ γ} {Q : α → β → σ → σ → Prop}
    {P : γ → β → σ → σ → Prop} (h : Trails bond excused act s act' s' Q)
    (hnext : ∀ a b s₁ s₁', bond.alike s₁ s₁' → bond.keeps s s₁ → bond.keeps s' s₁' →
      Q a b s₁ s₁' → Trails bond excused (next a) s₁ (Pure.pure b : EStateM ε σ β) s₁' P) :
    Trails bond excused (act >>= next) s act' s' P := by
  rw [← bind_pure act']
  exact h.bind hnext

end Trails

end SexprAsm
