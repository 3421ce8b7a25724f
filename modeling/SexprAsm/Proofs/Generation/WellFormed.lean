import SexprAsm.Proofs.Generation.Steady
import SexprAsm.Proofs.Program

/-!
# Generated code is well formed

The invariant of `Steady` holds at the end of a run that succeeds. So the code of a program splits
into groups that the final heap types, and every jump, and every address that a caller of an event
leaves for its return, goes to where a group starts.
-/

namespace SexprAsm

open Generation Resolution

variable {cfg : Setting} {t : Tree} {stack stack' : List WorkUnit} {u : WorkUnit}
  {w w' : Workspace}

/-! ## Event calls -/

/-- The next step of the unit calls the routine of an event. -/
def CallsEvent (t : Tree) (u : WorkUnit) (label : String) : Prop :=
  match u.task with
  | .callEvent => (t.tag u.node).text? = some label
  | .event _ => u.step = 0 ∧ u.target.isSome = true ∧
      ((t.children u.node)[0]?.bind fun child => (t.tag child).text?) = some label
  | _ => False

/-- A step that calls the routine of an event leaves the address of a place to return to. -/
theorem exists_storesReturn {label : String} (hcheck : cfg.typeCheck = true) {p : Progress}
    {u' : WorkUnit} (hcalls : CallsEvent t u label) (h : Yields (step cfg t u) w (p, u') w')
    (hw : Coherent cfg.catalog w) :
    ∃ entry address, w.entryPoints.get? label = some entry ∧
      StoresReturn w'.assembly w.assembly.instructions.length entry.returnPointer address ∧
      Lands w'.assembly.instructions (.after (some (w.assembly.instructions.length + 3))) ∧
      address.toNat = Instruction.bytes
        (w'.assembly.instructions.take (w.assembly.instructions.length + 4)) := by
  obtain ⟨node, target, n, temps, task⟩ := u
  cases task with
  | callEvent =>
    obtain ⟨name, hname, hcall, -, -⟩ := step_callEvent_cases h
    obtain rfl := Option.some.inj (hname.symm.trans hcalls)
    exact (hw.callEvent hcheck hcall).2
  | event skip =>
    obtain ⟨rfl, htarget, hlabel⟩ := hcalls
    obtain ⟨first, name, hfirst, hname, hcases⟩ := stepEvent_cases h
    rw [hfirst, Option.bind_some, hname] at hlabel
    obtain rfl := Option.some.inj hlabel
    rcases hcases with ⟨-, skip', body, w₁, hcall, hbegin, -, -, -⟩ | ⟨hzero, -⟩
    · rcases hcall with ⟨hnone, -⟩ | ⟨slot, jump, w₀, -, -, hcall, hjump⟩
      · rw [hnone] at htarget
        cases htarget
      · -- What follows the call in the same step keeps what it has stored.
        obtain ⟨hadv₀, entry, address, hentry, hstores, hlands, haddress⟩ :=
          hw.callEvent hcheck hcall
        have hadv₁ := (hadv₀.coherent.jump hjump trivial).1
        have hlater := hadv₁.later.trans (hadv₁.coherent.beginBlock hbegin).later
        refine ⟨entry, address, hentry, hstores.later hlater, hlater.code.lands hlands, ?_⟩
        obtain ⟨i, hi, -⟩ := hlands
        rw [haddress, hlater.code.bytes_take]
        exact (List.getElem?_eq_some_iff.mp hi).1
    · exact absurd rfl hzero
  | _ => exact hcalls.elim

/-! ## Programs -/

/-- The tree has no node for inline assembly. -/
def Tree.NoInlineAsm (t : Tree) : Prop :=
  ∀ id, t.tag id = .string Keyword.inlineAsm → (t.node id).isLeaf = true

instance (t : Tree) : Decidable t.NoInlineAsm :=
  decidable_of_iff
    (∀ id < t.size, t.tag id = .string Keyword.inlineAsm → (t.node id).isLeaf = true) <| by
    refine ⟨fun h id => ?_, fun h id _ => h id⟩
    rcases Nat.lt_or_ge id t.size with hlt | hge
    · exact h id hlt
    · intro _
      rw [Tree.node_of_le hge]
      rfl

theorem Tree.NoInlineAsm.not_inlineAsm (h : t.NoInlineAsm) (hw : Prepared cfg t w) {id : NodeId} :
    w.construct? id ≠ some .inlineAsm := by
  intro hid
  obtain ⟨htag, hleaf⟩ := hw.meaning id .inlineAsm hid
  have := (h id htag).symm.trans hleaf
  cases this

/-- Code that splits into typed groups, all of whose jumps go to where groups start. -/
structure Assembly.WellFormed (c : Catalog) (a : Assembly) (gs : List Group) : Prop where
  code : a.instructions = gs.flatMap Group.instructions
  typed : ∀ g ∈ gs, g.Typed c a.heap
  jumps : ∀ line ∈ a.lines.toList, ∀ target, line.instruction.target? = some target →
    ∃ address, a.addressOf line.offset target = .ok address ∧ Group.Boundary gs address

/-- A place right after an instruction that is no push is where a group starts. -/
theorem Lands.boundary {code : List Instruction} {gs : List Group} {n : Nat}
    (hcode : code = gs.flatMap Group.instructions) (h : Lands code (.after (some n))) :
    Group.Boundary gs (Instruction.bytes (code.take (n + 1))) := by
  obtain ⟨i, hi, hpush⟩ := h
  subst hcode
  exact Group.boundary_of_not_push hi hpush

theorem Coherent.wellFormed {c : Catalog} (hw : Coherent c w)
    (haddresses : ∀ line ∈ w.assembly.lines.toList, ∀ target,
      line.instruction.target? = some target →
      ∃ address, w.assembly.addressOf line.offset target = .ok address) :
    ∃ gs, w.assembly.WellFormed c gs := by
  obtain ⟨gs, hcode, htyped⟩ := hw.grouped
  refine ⟨gs, hcode, htyped, fun line hline target htarget => ?_⟩
  obtain ⟨address, haddress⟩ := haddresses line hline target htarget
  refine ⟨address, haddress, ?_⟩
  have hlands := hw.lands line.instruction (List.mem_map.mpr ⟨line, hline, rfl⟩) target htarget
  cases target with
  | unresolved => cases haddress
  | address n => cases hlands
  | after id =>
    cases id with
    | none =>
      obtain rfl := Except.ok.inj haddress
      exact ⟨[], gs, rfl, rfl⟩
    | some n =>
      have hn : n < w.assembly.lines.size := by
        obtain ⟨i, hi, -⟩ := hlands
        rw [← Assembly.length_instructions]
        exact (List.getElem?_eq_some_iff.mp hi).1
      rw [hw.laid.addressOf_after hn] at haddress
      obtain rfl := Except.ok.inj haddress
      exact hlands.boundary hcode

/-- A unit that calls the routine of an event on the way to the end of a run leaves the address of a
place where a group of the final code starts. -/
theorem Reaches.exists_return {label : String} {rest : List WorkUnit} {last : Workspace}
    {gs : List Group} (hcheck : cfg.typeCheck = true) (hc : cfg.catalog.Indexed)
    (hw : Steady cfg t (u :: rest) w)
    (hend : Reaches cfg t (u :: rest) w [] last) (hcalls : CallsEvent t u label)
    (hcode : last.assembly.instructions = gs.flatMap Group.instructions) :
    ∃ entry address, w.entryPoints.get? label = some entry ∧
      StoresReturn last.assembly w.assembly.instructions.length entry.returnPointer address ∧
      Group.Boundary gs address.toNat := by
  -- The run does not end here, so the unit takes its step.
  obtain ⟨p, u', w₁, stack', w₂, hstep, hmove, hsame, hrest⟩ : ∃ p u' w₁ stack' w₂,
      Yields (step cfg t u) w (p, u') w₁ ∧ Move cfg t (u :: rest) w stack' w₂ ∧ w₁ = w₂ ∧
      Reaches cfg t stack' w₂ [] last := by
    cases hend with
    | head hmove hrest =>
      cases hmove with
      | done hstep => exact ⟨_, _, _, _, _, hstep, .done hstep, rfl, hrest⟩
      | again hstep => exact ⟨_, _, _, _, _, hstep, .again hstep, rfl, hrest⟩
      | descend hstep hstart =>
        exact ⟨_, _, _, _, _, hstep, .descend hstep hstart, (start_cases hstart).1, hrest⟩
  subst hsame
  obtain ⟨entry, address, hentry, hstores, hlands, haddress⟩ :=
    exists_storesReturn hcheck hcalls hstep hw.coherent
  obtain ⟨-, hlater⟩ := Reaches.steady hcheck hc hrest (Move.steady hcheck hc hmove hw).1
  refine ⟨entry, address, hentry, hstores.later hlater, ?_⟩
  have hlength : w.assembly.instructions.length + 4 ≤ w₁.assembly.instructions.length := by
    obtain ⟨i, hi, -⟩ := hlands
    exact (List.getElem?_eq_some_iff.mp hi).1
  rw [haddress, ← hlater.code.bytes_take hlength]
  exact (hlater.code.lands hlands).boundary hcode

/-- A program that compiles with types checked, and has no inline assembly, is made of groups that
its final heap types. Every jump, and every address that an event call stores for its return, goes
to where a group starts or to the end of the code. -/
theorem Program.compile_wellFormed {c : Catalog} {source : String} {p : Program} (hc : c.Loaded)
    (h : Program.compile ⟨c, true⟩ source = .ok p) :
    ∃ t before after first, Program.Stages ⟨c, true⟩ source p t before after ∧
      Yields (start t Tree.root none) before first before ∧
      Reaches ⟨c, true⟩ t [first] before [] after ∧
      (t.NoInlineAsm → ∃ gs, after.assembly.WellFormed c gs ∧
        ∀ u rest w label, Reaches ⟨c, true⟩ t [first] before (u :: rest) w →
          CallsEvent t u label → ∃ entry address, w.entryPoints.get? label = some entry ∧
            StoresReturn after.assembly w.assembly.instructions.length entry.returnPointer
              address ∧ Group.Boundary gs address.toNat) := by
  obtain ⟨t, before, after, hstages⟩ := Program.compile_stages h
  obtain ⟨x, -, hholds⟩ := Tree.read?_ok (Tree.read_eq_ok_iff.mp hstages.read)
  obtain ⟨first, hstart, hend⟩ := generate_cases hholds hstages.generated
  refine ⟨t, before, after, first, hstages, hstart, hend, fun hasm => ?_⟩
  have hprepared := Program.resolved_prepared hstages.resolved
  have hsteady := hprepared.steady hc.indexed (fun id => hasm.not_inlineAsm hprepared) hstart
  have hlast := (Reaches.steady rfl hc.indexed hend hsteady).1.coherent
  obtain ⟨gs, hwellFormed⟩ := hlast.wellFormed fun line hline target htarget =>
    hstages.addresses hline htarget
  refine ⟨gs, hwellFormed, fun u rest w label hreaches hcalls => ?_⟩
  have hthere := (Reaches.steady rfl hc.indexed hreaches hsteady).1
  exact Reaches.exists_return rfl hc.indexed hthere (hreaches.rest_of_end hend) hcalls
    hwellFormed.code

/-- A conditional whose value is assigned compiles to code that is made of groups. -/
theorem Program.compile_wellFormed_conditional :
    ∃ t before after first gs p,
      Program.compile ⟨Catalog.empty, true⟩ "=(x,if(true,1,2))" = .ok p ∧
      Program.Stages ⟨Catalog.empty, true⟩ "=(x,if(true,1,2))" p t before after ∧
      Reaches ⟨Catalog.empty, true⟩ t [first] before [] after ∧
      after.assembly.WellFormed Catalog.empty gs := by
  have hok : (Program.compile ⟨Catalog.empty, true⟩ "=(x,if(true,1,2))").isOk = true := by
    decide +kernel
  obtain ⟨p, hp⟩ := exists_ok_of_isOk hok
  obtain ⟨t, before, after, first, hstages, hstart, hend, hcode⟩ :=
    Program.compile_wellFormed (Or.inl rfl) hp
  have hasm : t.NoInlineAsm := by
    have hread : (Tree.read "=(x,if(true,1,2))").toOption.all (fun t => decide t.NoInlineAsm) := by
      decide +kernel
    rw [hstages.read] at hread
    exact of_decide_eq_true hread
  obtain ⟨gs, hwellFormed, -⟩ := hcode hasm
  exact ⟨t, before, after, first, gs, p, hp, hstages, hend, hwellFormed⟩

end SexprAsm
