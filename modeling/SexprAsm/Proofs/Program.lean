import SexprAsm.Proofs.Assembly.Rendering
import SexprAsm.Proofs.Generation.Run
import SexprAsm.Proofs.Resolution

/-!
# Programs that compile

The stages of a compilation that succeeds, and what its program shows of the last one.
-/

namespace SexprAsm

open Generation

/-- Code is generated in the workspace that resolution leaves. -/
theorem Program.generated_eq_ok_iff {cfg : Setting} {t : Tree} {after : Workspace} :
    Program.generated cfg t = .ok after ↔
      ∃ before, Program.resolved cfg t = .ok before ∧ Yields (generate cfg t) before () after := by
  unfold Program.generated
  rw [Except.bind_eq_ok]
  refine exists_congr fun before => and_congr_right fun _ => ?_
  cases hgenerated : (generate cfg t).run before with
  | error e w => exact ⟨fun h => (by cases h), fun h => (by cases hgenerated.symm.trans h)⟩
  | ok _ w =>
    have hyields : Yields (generate cfg t) before () w := hgenerated
    exact ⟨fun h => Except.ok.inj h ▸ hyields, fun h => (hyields.unique h).2 ▸ rfl⟩

theorem Program.ofTree_of_resolved {cfg : Setting} {t : Tree} {before : Workspace}
    (h : Program.resolved cfg t = .ok before) :
    Program.ofTree cfg t = match generate cfg t before with
      | .ok _ after => Program.ofAssembly cfg.catalog.types after.assembly
      | .error e _ => .error e := by
  unfold Program.ofTree Program.generated
  rw [h]
  cases hgenerated : generate cfg t before <;> simp [EStateM.run, hgenerated, bind, Except.bind]

/-- The stages of a compilation: the tree of the source, the workspace that its nodes have been
given a meaning in, and the one that its code has been generated in. -/
structure Program.Stages (cfg : Setting) (source : String) (p : Program) (t : Tree)
    (before after : Workspace) : Prop where
  read : Tree.read source = .ok t
  resolved : Program.resolved cfg t = .ok before
  generated : Yields (generate cfg t) before () after
  assembled : Program.ofAssembly cfg.catalog.types after.assembly = .ok p

theorem Program.compile_stages {cfg : Setting} {source : String} {p : Program}
    (h : Program.compile cfg source = .ok p) : ∃ t before after,
      Program.Stages cfg source p t before after := by
  unfold Program.compile at h
  split at h
  next => cases h
  next t hread =>
    split at h
    next => cases h
    next program hprogram =>
      obtain rfl := Except.ok.inj h
      obtain ⟨after, hafter, hassembled⟩ := Except.bind_eq_ok.mp hprogram
      obtain ⟨before, hresolved, hgenerated⟩ := Program.generated_eq_ok_iff.mp hafter
      exact ⟨t, before, after, hread, hresolved, hgenerated, hassembled⟩

/-- A source is read if something can be told of its tree, which is linked then. -/
theorem Tree.read_of_any {source : String} {p : Tree → Bool}
    (h : (Tree.read source).toOption.any p = true) :
    ∃ t, Tree.read source = .ok t ∧ t.Linked ∧ Tree.root < t.size ∧ p t = true := by
  obtain ⟨t, hread, hp⟩ := exists_ok_of_any h
  obtain ⟨x, -, hholds⟩ := Tree.read?_ok (Tree.read_eq_ok_iff.mp hread)
  exact ⟨t, hread, hholds.linked, hholds.root_lt, hp⟩

/-! ## The program of an assembly -/

/-- A program is its text with the symbols, the size and the entry points of its assembly. -/
theorem Program.ofAssembly_eq_ok_iff {types : TypeTable} {a : Assembly} {p : Program} :
    Program.ofAssembly types a = .ok p ↔ a.text types = .ok p.assembly ∧
      p.symbols = a.symbols types ∧ p.heapSize = a.heapSize ∧ p.entryPoints = a.entryLabels := by
  unfold Program.ofAssembly
  cases a.text types with
  | error e =>
    constructor
    · intro h
      cases h
    · rintro ⟨h, -⟩
      cases h
  | ok text =>
    constructor
    · intro h
      obtain rfl := Except.ok.inj h
      exact ⟨rfl, rfl, rfl, rfl⟩
    · obtain ⟨assembly, symbols, heapSize, entryPoints⟩ := p
      rintro ⟨htext, rfl, rfl, rfl⟩
      obtain rfl := Except.ok.inj htext
      rfl

section Stages

variable {cfg : Setting} {source : String} {p : Program} {t : Tree} {before after : Workspace}

theorem Program.Stages.text (h : Program.Stages cfg source p t before after) :
    after.assembly.text cfg.catalog.types = .ok p.assembly :=
  (Program.ofAssembly_eq_ok_iff.mp h.assembled).1

theorem Program.Stages.symbols (h : Program.Stages cfg source p t before after) :
    p.symbols = after.assembly.symbols cfg.catalog.types :=
  (Program.ofAssembly_eq_ok_iff.mp h.assembled).2.1

theorem Program.Stages.entryPoints (h : Program.Stages cfg source p t before after) :
    p.entryPoints = after.assembly.lines.toList.filterMap (·.label) :=
  (Program.ofAssembly_eq_ok_iff.mp h.assembled).2.2.2

/-- In a program, every jump has an address. -/
theorem Program.Stages.addresses (h : Program.Stages cfg source p t before after) {line : Line}
    (hline : line ∈ after.assembly.lines.toList) {target : JumpTarget}
    (htarget : line.instruction.target? = some target) :
    ∃ address, after.assembly.addressOf line.offset target = .ok address :=
  Assembly.exists_text_iff_addresses.mp ⟨_, h.text⟩ line hline target htarget

end Stages

end SexprAsm
