import Mathlib.Data.List.Forall2
import Mathlib.Tactic.Common

/-!
# Outcomes

Reading, loading and rendering give a result or say why not. The lemmas of this module take an
outcome that is a result apart into the results it has been made from, as those of `Yields` do for
steps on a state.
-/

namespace SexprAsm

variable {ε α β σ : Type} {outcome : Except ε α}

/-- What is made in two steps is a result just if each of them gives one. -/
theorem Except.bind_eq_ok {next : α → Except ε β} {b : β} :
    outcome >>= next = .ok b ↔ ∃ a, outcome = .ok a ∧ next a = .ok b := by
  cases outcome with
  | error e =>
    constructor
    · intro h
      cases h
    · rintro ⟨_, h, -⟩
      cases h
  | ok a =>
    constructor
    · intro h
      exact ⟨a, rfl, h⟩
    · rintro ⟨_, h, hnext⟩
      cases h
      exact hnext

/-- There is a result if something can be read off it. -/
theorem exists_ok_of_map {f : α → β} {b : β} (h : outcome.toOption.map f = some b) :
    ∃ a, outcome = .ok a ∧ f a = b := by
  cases outcome with
  | error e => cases h
  | ok a => exact ⟨a, rfl, Option.some.inj h⟩

/-- There is a result if it passes a test. -/
theorem exists_ok_of_any {test : α → Bool} (h : outcome.toOption.any test = true) :
    ∃ a, outcome = .ok a ∧ test a = true := by
  cases outcome with
  | error e => cases h
  | ok a => exact ⟨a, rfl, h⟩

theorem exists_ok_of_isOk (h : outcome.isOk = true) : ∃ a, outcome = .ok a := by
  cases outcome with
  | error e => cases h
  | ok a => exact ⟨a, rfl⟩

/-- What is read off a result is there just if the result is. -/
theorem exists_map_eq_ok_iff {f : α → β} :
    (∃ b, outcome >>= (fun a => pure (f a)) = .ok b) ↔ ∃ a, outcome = .ok a := by
  constructor
  · rintro ⟨b, h⟩
    obtain ⟨a, ha, -⟩ := Except.bind_eq_ok.mp h
    exact ⟨a, ha⟩
  · rintro ⟨a, ha⟩
    exact ⟨f a, Except.bind_eq_ok.mpr ⟨a, ha, rfl⟩⟩

/-! ## Lists -/

section Lists

variable {f : α → Except ε β} {items : List α} {results : List β}

/-- The results of a list are those of its items, one by one. -/
theorem mapM_eq_ok_iff :
    items.mapM f = .ok results ↔ List.Forall₂ (fun a b => f a = .ok b) items results := by
  induction items generalizing results with
  | nil =>
    rw [List.mapM_nil, List.forall₂_nil_left_iff]
    exact ⟨fun h => (Except.ok.inj h).symm, fun h => h ▸ rfl⟩
  | cons item items ih =>
    rw [List.mapM_cons, Except.bind_eq_ok, List.forall₂_cons_left_iff]
    constructor
    · rintro ⟨b, hitem, h⟩
      obtain ⟨bs, hitems, hresults⟩ := Except.bind_eq_ok.mp h
      exact ⟨b, bs, hitem, ih.mp hitems, (Except.ok.inj hresults).symm⟩
    · rintro ⟨b, bs, hitem, hitems, rfl⟩
      exact ⟨b, hitem, Except.bind_eq_ok.mpr ⟨bs, ih.mpr hitems, rfl⟩⟩

/-- A list has results if each of its items has one. -/
theorem exists_mapM_eq_ok_iff :
    (∃ results, items.mapM f = .ok results) ↔ ∀ a ∈ items, ∃ b, f a = .ok b := by
  induction items with
  | nil => exact iff_of_true ⟨[], rfl⟩ (by rintro _ ⟨⟩)
  | cons item items ih =>
    rw [List.forall_mem_cons, ← ih]
    constructor
    · rintro ⟨results, h⟩
      obtain ⟨b, bs, hitem, hitems, -⟩ := List.forall₂_cons_left_iff.mp (mapM_eq_ok_iff.mp h)
      exact ⟨⟨b, hitem⟩, bs, mapM_eq_ok_iff.mpr hitems⟩
    · rintro ⟨⟨b, hitem⟩, bs, hitems⟩
      exact ⟨b :: bs, mapM_eq_ok_iff.mpr (.cons hitem (mapM_eq_ok_iff.mp hitems))⟩

end Lists

/-! ## Folds -/

variable {step : σ → α → Except ε σ} {c c' : σ}

/-- What every step of a fold keeps, the whole fold keeps. -/
theorem foldlM_keeps {P : σ → Prop} (hstep : ∀ {c c' : σ} {a : α}, P c → step c a = .ok c' → P c')
    {items : List α} (h : P c) (hfold : items.foldlM step c = .ok c') : P c' := by
  induction items generalizing c with
  | nil =>
    obtain rfl := Except.ok.inj hfold
    exact h
  | cons item items ih =>
    rw [List.foldlM_cons] at hfold
    obtain ⟨c₁, hfirst, hrest⟩ := Except.bind_eq_ok.mp hfold
    exact ih (hstep h hfirst) hrest

/-- A fold goes through the state before any of its items and the one after it. -/
theorem foldlM_split {before after : List α} {a : α}
    (h : (before ++ a :: after).foldlM step c = .ok c') :
    ∃ c₁ c₂, before.foldlM step c = .ok c₁ ∧ step c₁ a = .ok c₂ ∧
      after.foldlM step c₂ = .ok c' := by
  rw [List.foldlM_append] at h
  obtain ⟨c₁, hbefore, h⟩ := Except.bind_eq_ok.mp h
  rw [List.foldlM_cons] at h
  obtain ⟨c₂, hstep, hafter⟩ := Except.bind_eq_ok.mp h
  exact ⟨c₁, c₂, hbefore, hstep, hafter⟩

end SexprAsm
