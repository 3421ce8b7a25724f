import SexprAsm.Proofs.Assembly.Groups
import SexprAsm.Proofs.Catalog
import SexprAsm.Proofs.Resolution

/-!
# Code stays well formed while it is generated

`Coherent` is the invariant of a compilation: the code splits into groups that the heap types, and
every jump whose target is known lands where a group starts. One lemma for each operation that the
steps of units are made of says that it keeps the invariant and only adds to what is there
(`Advances`).
-/

namespace SexprAsm

open Resolution

/-- A workspace that a compilation has come to: what was there is there. -/
structure Workspace.Later (w w' : Workspace) : Prop where
  heap : w.assembly.heap.Extends w'.assembly.heap
  code : Follows w.assembly.instructions w'.assembly.instructions
  findings : w'.findings = w.findings

open Workspace

theorem Workspace.Later.refl (w : Workspace) : w.Later w := ⟨.refl _, .refl _, rfl⟩

theorem Workspace.Later.trans {w w' w'' : Workspace} (h : w.Later w') (h' : w'.Later w'') :
    w.Later w'' :=
  ⟨h.heap.trans h'.heap, h.code.trans h'.code, h'.findings.trans h.findings⟩

/-- The code splits into typed groups, and known jumps land where groups start. -/
structure Coherent (c : Catalog) (w : Workspace) : Prop where
  laid : w.assembly.Laid
  sound : w.assembly.heap.Sound
  pooled : w.Pooled
  grouped : ∃ gs : List Group, w.assembly.instructions = gs.flatMap Group.instructions ∧
    ∀ g ∈ gs, g.Typed c w.assembly.heap
  lands : ∀ i ∈ w.assembly.instructions, ∀ target, i.target? = some target →
    Lands w.assembly.instructions target
  starts : ∀ label entry start, w.entryPoints.get? label = some entry →
    entry.bodyStart = some start → Lands w.assembly.instructions start

/-- A step of the compilation keeps what is there, and the invariant. -/
structure Advances (c : Catalog) (w w' : Workspace) : Prop where
  later : w.Later w'
  coherent : Coherent c w'

theorem Advances.trans {c : Catalog} {w w' w'' : Workspace} (h : Advances c w w')
    (h' : Advances c w' w'') : Advances c w w'' :=
  ⟨h.later.trans h'.later, h'.coherent⟩

namespace Coherent

variable {c : Catalog} {w w' : Workspace}

theorem refl (h : Coherent c w) : Advances c w w := ⟨.refl w, h⟩

/-- The end of the code is a place to jump to. -/
theorem lands_last (h : Coherent c w) :
    Lands w.assembly.instructions (.after w.assembly.last?) := by
  unfold Assembly.last?
  split
  next => trivial
  next hempty =>
    obtain ⟨gs, hgs, -⟩ := h.grouped
    have hpos : 0 < w.assembly.lines.size := by
      rcases Nat.eq_zero_or_pos w.assembly.lines.size with hzero | hpos
      · exact absurd (by simp [Array.isEmpty, hzero]) hempty
      · exact hpos
    rw [← Assembly.length_instructions] at hpos ⊢
    rcases List.eq_nil_or_concat gs with rfl | ⟨before, g, rfl⟩
    · rw [hgs] at hpos
      cases hpos
    · obtain ⟨pushes, last, hg, -, hpush⟩ := g.exists_last
      refine ⟨last, ?_, hpush⟩
      have hcode : w.assembly.instructions =
          (before.flatMap Group.instructions ++ pushes) ++ [last] := by
        rw [hgs, List.concat_eq_append, List.flatMap_append, List.flatMap_singleton, hg,
          List.append_assoc]
      rw [hcode]
      simp

/-- Emitting a group keeps the invariant. -/
theorem emitGroup (h : Coherent c w) {a : Assembly} (g : Group)
    (hemits : Emits w.assembly g.instructions a) (htyped : g.Typed c a.heap)
    (htargets : ∀ i ∈ g.instructions, ∀ target, i.target? = some target →
      Lands w.assembly.instructions target) :
    Advances c w { w with assembly := a } := by
  have hfollows : Follows w.assembly.instructions a.instructions := by
    rw [hemits.code]
    exact .append _ _
  obtain ⟨gs, hgs, hall⟩ := h.grouped
  refine ⟨⟨hemits.heap, hfollows, rfl⟩, hemits.laid h.laid, hemits.sound h.sound,
    h.pooled.onAssembly hemits.heap, ⟨gs ++ [g], ?_, ?_⟩, ?_, ?_⟩
  · show a.instructions = _
    rw [hemits.code, hgs, List.flatMap_append, List.flatMap_singleton]
  · intro other hother
    rcases List.mem_append.mp hother with hother | hother
    · exact (hall other hother).mono hemits.heap
    · rw [List.mem_singleton.mp hother]
      exact htyped
  · intro i hi target htarget
    rw [show ({ w with assembly := a } : Workspace).assembly = a from rfl, hemits.code] at hi
    rcases List.mem_append.mp hi with hi | hi
    · exact hfollows.lands (h.lands i hi target htarget)
    · exact hfollows.lands (htargets i hi target htarget)
  · intro label entry start hentry hstart
    exact hfollows.lands (h.starts label entry start hentry hstart)

/-- Work on the heap alone keeps the invariant. -/
theorem emitNothing (h : Coherent c w) {a : Assembly} (hemits : Emits w.assembly [] a) :
    Advances c w { w with assembly := a } := by
  have hcode : a.instructions = w.assembly.instructions := by rw [hemits.code, List.append_nil]
  obtain ⟨gs, hgs, hall⟩ := h.grouped
  refine ⟨⟨hemits.heap, ?_, rfl⟩, hemits.laid h.laid, hemits.sound h.sound,
    h.pooled.onAssembly hemits.heap, ⟨gs, hcode.trans hgs, fun g hg => (hall g hg).mono hemits.heap⟩,
    ?_, ?_⟩
  · show Follows _ a.instructions
    rw [hcode]
    exact .refl _
  · show ∀ i ∈ a.instructions, ∀ target, i.target? = some target → Lands a.instructions target
    rw [hcode]
    exact h.lands
  · show ∀ label entry start, w.entryPoints.get? label = some entry →
      entry.bodyStart = some start → Lands a.instructions start
    rw [hcode]
    exact h.starts

/-- What is neither code nor heap may change, as long as temporaries and entry points stay
sound. -/
theorem besides (h : Coherent c w) (hassembly : w'.assembly = w.assembly)
    (hfindings : w'.findings = w.findings) (hpooled : w'.Pooled)
    (hstarts : ∀ label entry start, w'.entryPoints.get? label = some entry →
      entry.bodyStart = some start → Lands w.assembly.instructions start) : Advances c w w' := by
  refine ⟨⟨?_, ?_, hfindings⟩, ?_, ?_, hpooled, ?_, ?_, ?_⟩ <;> rw [hassembly]
  · exact .refl _
  · exact .refl _
  · exact h.laid
  · exact h.sound
  · exact h.grouped
  · exact h.lands
  · exact hstarts

/-! ## Operations -/

section Operations

variable {cfg : Setting} {id : InstructionId} (hcheck : cfg.typeCheck = true)
  (hc : cfg.catalog.Indexed) (hw : Coherent cfg.catalog w)

include hcheck hw in
theorem copy {source : Operand} {target : String}
    (h : Yields (Compile.emit (Emit.copy cfg source target)) w id w') :
    Advances cfg.catalog w w' := by
  obtain ⟨a, hcopy, rfl⟩ := Compile.emit_iff.mp h
  obtain ⟨slot, -, hemits, v, u, hv, hu, htype⟩ := Emit.copy_spec hcopy hw.sound
  refine hw.emitGroup (.copy slot target) hemits ⟨v, u, hv, hu, htype hcheck⟩ ?_
  intro i hi target htarget
  rcases List.mem_cons.mp hi with rfl | hi
  · cases htarget
  · rcases List.mem_pair.mp hi with rfl | rfl <;> cases htarget

include hw in
theorem nop (h : Yields (Compile.emit (Emit.instruction .nop)) w id w') :
    Advances cfg.catalog w w' := by
  obtain ⟨a, hnop, rfl⟩ := Compile.emit_iff.mp h
  refine hw.emitGroup .nop (Emit.instruction_spec hnop).2 trivial fun i hi target htarget => ?_
  rw [List.mem_singleton.mp hi] at htarget
  cases htarget

include hw in
/-- A jump goes to a place where a group starts, if it is known where it goes. -/
theorem jump {target : JumpTarget}
    (h : Yields (Compile.emit (Emit.instruction (.jump target))) w id w')
    (hlands : Lands w.assembly.instructions target) :
    Advances cfg.catalog w w' ∧ Lands w'.assembly.instructions (.after (some id)) ∧
      id = w.assembly.instructions.length ∧
      w'.assembly.instructions = w.assembly.instructions ++ [.jump target] := by
  obtain ⟨a, hjump, rfl⟩ := Compile.emit_iff.mp h
  obtain ⟨rfl, hemits⟩ := Emit.instruction_spec hjump
  refine ⟨hw.emitGroup (.jump target) hemits trivial fun i hi other hother => ?_, ?_, rfl,
    hemits.code⟩
  · rw [List.mem_singleton.mp hi] at hother
    rw [← Option.some.inj hother]
    exact hlands
  · refine ⟨.jump target, ?_, rfl⟩
    show a.instructions[_]? = _
    rw [hemits.code]
    simp

include hcheck hc hw in
theorem jumpIfFalse {condition : String}
    (h : Yields (Compile.emit (Emit.jumpIfFalse cfg condition .unresolved)) w id w') :
    Advances cfg.catalog w w' := by
  obtain ⟨a, hjump, rfl⟩ := Compile.emit_iff.mp h
  obtain ⟨-, hemits, v, hv, htype⟩ := Emit.jumpIfFalse_spec hjump
  refine hw.emitGroup (.branch condition .unresolved) hemits ⟨v, hv, ?_⟩ ?_
  · rw [htype hcheck]
    exact hc.names.2.1
  · intro i hi target htarget
    rcases List.mem_pair.mp hi with rfl | rfl
    · cases htarget
    · rw [← Option.some.inj htarget]
      trivial

include hcheck hc hw in
theorem jumpIndirect {address : String}
    (h : Yields (Compile.emit (Emit.jumpIndirect cfg address)) w id w') :
    Advances cfg.catalog w w' := by
  obtain ⟨a, hjump, rfl⟩ := Compile.emit_iff.mp h
  obtain ⟨hemits, v, hv, htype⟩ := Emit.jumpIndirect_spec hjump
  refine hw.emitGroup (.jumpIndirect address) hemits ⟨v, hv, ?_⟩ ?_
  · rw [htype hcheck]
    exact hc.names.2.2
  · intro i hi target htarget
    rw [List.mem_singleton.mp hi] at htarget
    cases htarget

include hw in
theorem typeOf? {name : String} {found : Option TypeId}
    (h : Yields (Compile.emit (Emit.typeOf? cfg name)) w found w') :
    Advances cfg.catalog w w' := by
  obtain ⟨a, htype, rfl⟩ := Compile.emit_iff.mp h
  exact hw.emitNothing (Emit.typeOf?_spec htype).1

include hw in
theorem entryPoint {label : String}
    (h : Yields (Compile.emit (Emit.entryPoint label)) w () w') : Advances cfg.catalog w w' := by
  obtain ⟨a, hlabel, rfl⟩ := Compile.emit_iff.mp h
  obtain rfl := Yields.modify_iff.mp hlabel
  exact ⟨⟨.refl _, .refl _, rfl⟩, hw.laid, hw.sound, hw.pooled.onAssembly (.refl _), hw.grouped,
    hw.lands, hw.starts⟩

include hw in
/-- Giving a jump a place where a group starts as its target keeps the invariant. -/
theorem patch {target : JumpTarget} (h : Yields (Compile.emit (Emit.patch id target)) w () w')
    (hlands : Lands w.assembly.instructions target) : Advances cfg.catalog w w' := by
  obtain ⟨a, hpatch, rfl⟩ := Compile.emit_iff.mp h
  obtain ⟨i, i', hget, hi, hheap, hcode, hlaid, -⟩ := Emit.patch_spec hpatch
  obtain ⟨gs, hgs, hall⟩ := hw.grouped
  have hfollows : Follows w.assembly.instructions a.instructions := by
    rw [hcode]
    exact .set hget hi
  have hext : w.assembly.heap.Extends a.heap := by
    rw [hheap]
    exact .refl _
  obtain ⟨gs', hgs', hall'⟩ := Group.exists_set (hgs ▸ hget) hi hall
  refine ⟨⟨hext, hfollows, rfl⟩, hlaid hw.laid, ?_, hw.pooled.onAssembly hext,
    ⟨gs', ?_, fun g hg => (hall' g hg).mono hext⟩, ?_, ?_⟩
  · show a.heap.Sound
    rw [hheap]
    exact hw.sound
  · show a.instructions = _
    rw [hcode, ← hgs', hgs]
  · intro j hj other hother
    have hmem : j ∈ w.assembly.instructions.set id i' := hcode ▸ hj
    rcases List.mem_or_eq_of_mem_set hmem with hmem | rfl
    · exact hfollows.lands (hw.lands j hmem other hother)
    · rw [Instruction.target?_of_retarget? hi] at hother
      rw [← Option.some.inj hother]
      exact hfollows.lands hlands
  · intro label entry start hentry hstart
    exact hfollows.lands (hw.starts label entry start hentry hstart)

theorem patchAll {jumps : List InstructionId} {target : JumpTarget}
    (hw : Coherent cfg.catalog w) (h : Yields (Generation.patchAll target jumps) w () w')
    (hlands : Lands w.assembly.instructions target) : Advances cfg.catalog w w' := by
  induction jumps generalizing w with
  | nil =>
    obtain ⟨-, rfl⟩ := Yields.pure_iff.mp h
    exact hw.refl
  | cons jump jumps ih =>
    simp only [Generation.patchAll, Yields.bind_iff] at h
    obtain ⟨_, w₁, hpatch, hrest⟩ := h
    have hfirst := hw.patch hpatch hlands
    exact hfirst.trans (ih hfirst.coherent hrest (hfirst.later.code.lands hlands))

include hw in
theorem rent {type : TypeId} {name : String} (h : Yields (Build.rent cfg type) w name w') :
    Advances cfg.catalog w w' ∧ w'.assembly.heap.slots.contains name = true := by
  obtain ⟨hemits, hpooled, hfindings, hentries, -, htemp, -⟩ := Build.rent_spec h hw.pooled
  have hstep := hw.emitNothing hemits
  refine ⟨hstep.trans (hstep.coherent.besides rfl hfindings hpooled ?_), htemp.contains⟩
  rw [hentries]
  exact hstep.coherent.starts

include hw in
theorem release {u u' : WorkUnit} (h : Yields (Generation.release u) w u' w') :
    Advances cfg.catalog w w' ∧ u' = { u with temps := [] } := by
  obtain ⟨rfl, rfl⟩ := Generation.release_cases h
  obtain ⟨hpooled, hassembly, hfindings, hentries, -⟩ :=
    foldl_giveBack_spec hw.pooled u.temps
  refine ⟨hw.besides hassembly hfindings hpooled ?_, rfl⟩
  rw [hentries]
  exact hw.starts

include hw in
/-- Changing an entry point keeps the invariant if its start, where it is new, is a place to jump
to. -/
theorem modifyEntry {label : String} {f : EntryPoint → EntryPoint}
    (h : Yields (Generation.modifyEntry label f) w () w')
    (hf : ∀ entry start, (f entry).bodyStart = some start →
      entry.bodyStart = some start ∨ Lands w.assembly.instructions start) :
    Advances cfg.catalog w w' := by
  obtain rfl := Yields.modify_iff.mp h
  refine hw.besides rfl rfl ⟨hw.pooled.nodup, hw.pooled.free, hw.pooled.rented⟩ ?_
  intro other entry start hentry hstart
  dsimp only at hentry
  rw [OrderedMap.get?_modify] at hentry
  split at hentry
  next heq =>
    subst heq
    obtain ⟨old, hold, rfl⟩ := Option.map_eq_some_iff.mp hentry
    rcases hf old start hstart with hstart | hlands
    · exact hw.starts other old start hold hstart
    · exact hlands
  next => exact hw.starts other entry start hentry hstart

/-- The item before a pair, where two rows go side by side. -/
theorem exists_pair {α β γ : Type} {R : α → β → Prop} {xs : List α} {ys : List β} {zs : List γ}
    (h : List.Forall₂ R xs ys) {y : β} {z : γ} (hmem : (y, z) ∈ ys.zip zs) :
    ∃ x, R x y ∧ (x, z) ∈ xs.zip zs := by
  induction h generalizing zs with
  | nil => cases hmem
  | @cons x y' xs ys hR _ ih =>
    cases zs with
    | nil => cases hmem
    | cons z' zs =>
      rw [List.zip_cons_cons] at hmem ⊢
      rcases List.mem_cons.mp hmem with heq | hmem
      · obtain ⟨rfl, rfl⟩ := Prod.mk.inj heq
        exact ⟨x, hR, List.mem_cons_self⟩
      · obtain ⟨x, hR, hx⟩ := ih hmem
        exact ⟨x, hR, List.mem_cons_of_mem _ hx⟩

include hcheck hc hw in
/-- A call keeps the invariant if the variables among its operands are there or may be written. The
variable for the result of an event is let through as a result. -/
theorem call {name : String} {operands : List Operand}
    (h : Yields (Compile.emit (Emit.call cfg name operands)) w id w')
    (hready : ∀ op, cfg.catalog.operationNamed? name = some op →
      op.parameters.length = operands.length →
      ∀ x p, (Operand.var x, p) ∈ operands.zip op.parameters →
        Assignable cfg.catalog w.assembly.heap x ∨
          x = Catalog.returnValue ∧ (p.direction = .output ∨ name = Manifest.arrayCreate)) :
    Advances cfg.catalog w w' ∧
      ∀ x, Operand.var x ∈ operands → w'.assembly.heap.slots.contains x = true := by
  obtain ⟨a, hcall, rfl⟩ := Compile.emit_iff.mp h
  obtain ⟨arguments, heap, hin, hext, hext', hemits, hchecked⟩ := Emit.call_spec hcall hw.sound
  obtain ⟨op, hop, hlength, hfits⟩ := hchecked hcheck
  have hoperands : op.parameters.length = operands.length := hlength.trans hin.length_eq.symm
  refine ⟨hw.emitGroup (.call arguments name) hemits ⟨op, hop, hlength, ?_⟩ ?_, ?_⟩
  · rintro ⟨argument, p⟩ hpair
    obtain ⟨v, hv, hfit⟩ := hfits _ hpair
    refine ⟨v, hv, ?_⟩
    rcases hfit with hadmits | ⟨hnone, hpinned, hconstant⟩
    · exact Or.inl hadmits
    obtain ⟨operand, hoperand, hmem⟩ := exists_pair hin hpair
    cases operand with
    | const value =>
      -- The slot of a literal has been there when the arguments were checked.
      obtain ⟨-, u, hu, -⟩ := hoperand
      rw [hnone] at hu
      cases hu
    | var x =>
      obtain rfl : argument = x := hoperand
      rcases hready op hop hoperands argument p hmem with (hcontains | hfree) | ⟨rfl, hresult⟩
      · obtain ⟨u, hu⟩ := OrderedMap.contains_iff.mp (hext.contains hcontains)
        rw [hnone] at hu
        cases hu
      · rw [hfree] at hpinned
        cases hpinned
      · by_cases hdirection : p.direction = .output
        · by_cases hobject : cfg.catalog.predefined.get? Catalog.returnValue = some TypeTable.object
          · -- The root type takes results of any type.
            have htype : TypeTable.object = v.type :=
              Option.some.inj (hobject.symm.trans hpinned)
            left
            rw [Parameter.Admits, hdirection, ← htype]
            exact ⟨hc.isCompatible_object hop (List.of_mem_zip hpair).2, hconstant⟩
          · exact Or.inr ⟨rfl, hconstant, Or.inl hobject⟩
        · exact Or.inr ⟨rfl, hconstant, Or.inr ⟨hresult.resolve_left hdirection, hdirection⟩⟩
  · intro i hi target htarget
    rcases List.mem_append.mp hi with hi | hi
    · obtain ⟨argument, -, rfl⟩ := List.mem_map.mp hi
      cases htarget
    · rw [List.mem_singleton.mp hi] at htarget
      cases htarget
  · intro x hx
    obtain ⟨n, hn, hget⟩ := List.getElem_of_mem hx
    have hzip : n < (operands.zip op.parameters).length := by
      rw [List.length_zip, hoperands, Nat.min_self]
      exact hn
    have hpair : (Operand.var x, op.parameters[n]) ∈ operands.zip op.parameters := by
      have := List.getElem_mem hzip
      rwa [List.getElem_zip, hget] at this
    obtain ⟨argument, hargument, hmem⟩ := exists_pair hin.flip hpair
    obtain rfl : argument = x := hargument
    obtain ⟨v, hv, -⟩ := hfits _ hmem
    exact OrderedMap.contains_iff.mpr ⟨v, hv⟩

end Operations

end Coherent

end SexprAsm
