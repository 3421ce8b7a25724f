import SexprAsm.Proofs.Generation.Preservation
import SexprAsm.Proofs.Generation.Run

/-!
# Runs keep code well formed

The invariant of `Coherence` holds before the first step, and every turn of the loop keeps it and
leaves units that can go on (`Steady`).
-/

namespace SexprAsm

open Generation Resolution

/-- A stack of units that can go on. -/
structure Steady (cfg : Setting) (t : Tree) (stack : List WorkUnit) (w : Workspace) : Prop where
  coherent : Coherent cfg.catalog w
  backed : Backed cfg t w
  /-- No node is inline assembly, which may be anything. -/
  noAsm : ∀ id, w.construct? id ≠ some .inlineAsm
  fits : ∀ u ∈ stack, Fits cfg w u

variable {cfg : Setting} {t : Tree} {stack stack' : List WorkUnit} {u : WorkUnit}
  {w w' : Workspace}

theorem Resolution.Prepared.coherent (h : Prepared cfg t w) : Coherent cfg.catalog w := by
  have hpooled := h.unstarted.pooled
  obtain ⟨⟨hlines, -, hconstants, -, -, hentries, -⟩, -⟩ := h
  have hcode : w.assembly.instructions = [] := by
    rw [Assembly.instructions, hlines]
    rfl
  refine ⟨?_, ⟨?_⟩, hpooled, ⟨[], hcode, List.forall_mem_nil _⟩, ?_, ?_⟩
  · intro n line hline
    rw [hlines] at hline
    cases hline
  · intro value name hname
    rw [hconstants] at hname
    cases hname
  · rw [hcode]
    exact List.forall_mem_nil _
  · intro label entry start hentry hstart
    rw [(hentries label entry hentry).bodyStart] at hstart
    cases hstart

/-- Generation starts with a unit that can go on. -/
theorem Resolution.Prepared.steady (hc : cfg.catalog.Indexed) (h : Prepared cfg t w)
    (hasm : ∀ id, w.construct? id ≠ some .inlineAsm)
    (hstart : Yields (start t Tree.root none) w u w) : Steady cfg t [u] w := by
  obtain ⟨-, hfits⟩ := start_fits hstart hc (hasm _) h.meaning (by simp)
  exact ⟨h.coherent, h.meaning, hasm, List.forall_mem_singleton.mpr hfits⟩

/-- A step leaves its unit, and those below it, able to go on. -/
theorem Steady.step {u' : WorkUnit} {rest : List WorkUnit} {p : Progress}
    (hcheck : cfg.typeCheck = true) (hc : cfg.catalog.Indexed) (hw : Steady cfg t (u :: rest) w)
    (h : Yields (step cfg t u) w (p, u') w') :
    Outcome cfg u w p u' w' ∧ Steady cfg t (u' :: rest) w' := by
  have hfits := hw.fits u List.mem_cons_self
  have hout := step_outcome hcheck hc h hw.coherent hw.backed hfits
  have hlater := hout.advances.later
  refine ⟨hout, hout.advances.coherent, hw.backed.later hlater, fun id hid => ?_, fun v hv => ?_⟩
  · rw [Workspace.construct?, Workspace.finding, hlater.findings] at hid
    exact hw.noAsm id hid
  · rcases List.mem_cons.mp hv with rfl | hv
    · refine ⟨fun name hname => ?_, hout.task⟩
      rw [hout.target] at hname
      exact (hfits.target name hname).mono hlater.heap
    · -- The rest of the stack only sees the workspace grow.
      exact (hw.fits v (List.mem_cons_of_mem _ hv)).later hlater

/-- The unit of a child that a step goes to can go on. -/
theorem Steady.start {child : NodeId} {target : Option String} {next : WorkUnit}
    (hc : cfg.catalog.Indexed) (hw : Steady cfg t stack w)
    (htarget : ∀ name, target = some name → Open cfg.catalog w.assembly.heap name)
    (h : Yields (start t child target) w next w') : w = w' ∧ Steady cfg t (next :: stack) w := by
  obtain ⟨rfl, hfits⟩ := start_fits h hc (hw.noAsm child) hw.backed htarget
  exact ⟨rfl, hw.coherent, hw.backed, hw.noAsm, List.forall_mem_cons.mpr ⟨hfits, hw.fits⟩⟩

/-- A turn of the loop keeps units able to go on. -/
theorem Move.steady (hcheck : cfg.typeCheck = true) (hc : cfg.catalog.Indexed)
    (h : Move cfg t stack w stack' w') (hw : Steady cfg t stack w) :
    Steady cfg t stack' w' ∧ w.Later w' := by
  cases h with
  | done hyields =>
    obtain ⟨hout, hnext⟩ := hw.step hcheck hc hyields
    exact ⟨⟨hnext.coherent, hnext.backed, hnext.noAsm, (List.forall_mem_cons.mp hnext.fits).2⟩,
      hout.advances.later⟩
  | again hyields =>
    obtain ⟨hout, hnext⟩ := hw.step hcheck hc hyields
    exact ⟨hnext, hout.advances.later⟩
  | descend hyields hstart =>
    obtain ⟨hout, hnext⟩ := hw.step hcheck hc hyields
    obtain ⟨rfl, hboth⟩ :=
      hnext.start hc (fun name hname => hout.descend _ name (by rw [hname])) hstart
    exact ⟨hboth, hout.advances.later⟩

theorem Reaches.steady (hcheck : cfg.typeCheck = true) (hc : cfg.catalog.Indexed)
    (h : Reaches cfg t stack w stack' w') (hw : Steady cfg t stack w) :
    Steady cfg t stack' w' ∧ w.Later w' := by
  induction h with
  | refl => exact ⟨hw, .refl _⟩
  | head hmove _ ih =>
    obtain ⟨hnext, hlater⟩ := Move.steady hcheck hc hmove hw
    obtain ⟨hlast, hlater'⟩ := ih hnext
    exact ⟨hlast, hlater.trans hlater'⟩

end SexprAsm
