import SexprAsm.Proofs.Program
import SexprAsm.Proofs.Reader.Acceptance
import SexprAsm.Proofs.Semantics.Control

/-!
# Programs mean what their trees mean

The machine comes to the end of a program if and only if the evaluation of its tree comes to an end,
and then the variables hold the same values.
-/

namespace SexprAsm

open Generation Resolution Workspace Evaluation

variable {V : Type} {cfg : Setting} {t : Tree} {before after : Workspace} {final : Assembly}
  {id : NodeId} {host : Host V} {n levels : Nat}

/-! ## Nodes

All constructs put together, by induction on the levels of the evaluation. The children of a node
have a smaller rank, so they are covered by one level less. -/

/-- The code of a node with all its children does what the node is evaluated to, if it is evaluated
on at least as many levels as there are below it. -/
theorem correct_of_rank (ht : t.Linked) {rank : NodeId → Nat}
    (hrank : ∀ c p, t.parent? c = some p → rank c < rank p) (hid : rank id < levels) :
    Correct host n cfg t before final levels id := by
  induction levels generalizing id with
  | zero => omega
  | succ levels ih =>
    intro target u w w' hstart hjob haim hsettled
    obtain ⟨-, construct, hconstruct, rfl⟩ := start_cases hstart
    rw [hjob.construct?_eq] at hconstruct
    have hplain := hjob.scene.eventFree.plain id construct hconstruct
    have hih : ∀ child ∈ t.children id, Correct host n cfg t before final levels child := by
      intro child hchild
      have := hrank child id ((ht.mem_iff id child).mp hchild)
      exact ih (by omega)
    cases construct with
    | literal => exact translates_literal hjob hconstruct haim hsettled
    | typeOf type => exact translates_typeOf hjob hconstruct haim hsettled
    | get => exact translates_get hjob hconstruct haim hsettled
    | declare => exact translates_declare hjob hconstruct haim hsettled
    | set => exact translates_set hjob hconstruct haim hsettled hih
    | cast type => exact translates_cast hjob hconstruct haim hsettled hih
    | sequence => exact translates_sequence hjob hconstruct haim hsettled hih
    | call op => exact translates_call hjob hconstruct haim hsettled hih
    | conditional => exact translates_conditional hjob hconstruct haim hsettled hih
    | loop =>
      cases target with
      | none => exact translates_loop hjob hconstruct hsettled hih
      | some x =>
        -- No value of a loop is used.
        exact absurd hconstruct (hjob.scene.eventFree.loops id (haim.used rfl))
    | event => exact hplain.elim
    | callEvent => exact hplain.elim
    | inlineAsm => exact hplain.elim
    | arrayFill type => exact hplain.elim

/-! ## Programs

From the root to the program. In one direction an evaluation that ends gives a run that ends; in
the other, the machine takes a number of steps, and an evaluation with more rounds than that
cannot lack any, since it would take the machine at least as many steps. -/

theorem Construct.Plain.isPlain {c : Catalog} {construct : Construct} (h : construct.Plain c) :
    (Task.ofConstruct construct).isPlain = true := by
  cases construct <;> first | rfl | exact h.elim

/-- The machine comes to the end of the code in one way only. -/
theorem Machine.Halts.unique {c : Catalog} {a : Assembly} {s s' : Machine V} (ha : a.Laid)
    (h : Machine.Halts host c a s) (h' : Machine.Halts host c a s') : s = s' := by
  obtain ⟨hplace, k, hrun⟩ := h
  obtain ⟨hplace', k', hrun'⟩ := h'
  have hle := le_of_runFor hrun (Machine.step_of_end ha hplace) hrun'
  have hle' := le_of_runFor hrun' (Machine.step_of_end ha hplace') hrun
  obtain rfl := Nat.le_antisymm hle hle'
  exact Option.some.inj (hrun.symm.trans hrun')

/-- The code of a whole tree does what the tree is evaluated to. -/
theorem does_tree {x : Sexpr} (hholds : t.Holds x) (hcheck : cfg.typeCheck = true)
    (hc : cfg.catalog.Indexed) (hprepared : Prepared cfg t before)
    (hgenerated : Yields (generate cfg t) before () after)
    (hfree : EventFree cfg.catalog t before) :
    Coherent cfg.catalog after ∧ ∀ {V : Type} (host : Host V) n,
      Does host cfg.catalog after.assembly.instructions n 0 after.assembly.instructions.length
        (host.initial after.assembly.heap) (eval host cfg.catalog t before n t.size Tree.root
          (host.initial after.assembly.heap))
        (Leaves (host.initial after.assembly.heap) none (fun x => before.rented.get? x ≠ none)
          (host.initial after.assembly.heap)) := by
  obtain ⟨first, hstart, hend⟩ := generate_cases hholds hgenerated
  obtain ⟨w₁, hfinishes, rfl⟩ := hend.finishAll
  have hasm : ∀ id, before.construct? id ≠ some .inlineAsm := fun id hid => hfree.plain id _ hid
  have hunder : Underway cfg t first before :=
    .ofStart (hprepared.steady hc hasm hstart)
      (fun id construct h => (hfree.plain id construct h).isPlain) hstart
  refine ⟨(hunder.finished hcheck hc hfinishes).coherent, fun host n => ?_⟩
  obtain ⟨rank, hrank, hbound⟩ := hholds.linked.exists_rank_lt
  have hcorrect : Correct host n cfg t before w₁.assembly t.size Tree.root :=
    correct_of_rank hholds.linked hrank (hbound _ hholds.root_lt)
  have hempty := hprepared.unstarted.length_instructions
  have hdoes := hcorrect none first before w₁ hstart
    ⟨⟨hcheck, hc, hfree⟩, hunder, rfl, hfinishes, .refl _⟩ ⟨by simp, by simp⟩ (fun _ _ _ => rfl)
    (host.initial w₁.assembly.heap) (host.initial w₁.assembly.heap)
    ⟨fun _ _ => rfl, fun _ _ => rfl⟩
  rwa [hempty] at hdoes

/-- A run of places to the end of the code is a run of the machine. -/
theorem Coherent.halts {c : Catalog} {w : Workspace} (hw : Coherent c w) {k : Nat} {τ : Store V}
    (h : Runs host c w.assembly.instructions k ⟨0, [], host.initial w.assembly.heap⟩
      ⟨w.assembly.instructions.length, [], τ⟩) :
    Machine.Halts host c w.assembly ⟨w.assembly.size, [], τ⟩ := by
  refine ⟨rfl, k, ?_⟩
  have hrun := Machine.runFor_addressed hw.laid hw.lands h
  rw [Machine.addressed, Machine.addressed, List.take_length, ← hw.laid.size_eq] at hrun
  exact hrun

/-- A program that compiles with types checked, and whose tree has no events, runs to its end if and
only if the tree can be evaluated, and leaves its variables with the same values. -/
theorem Program.compile_preserves {c : Catalog} {source : String} {p : Program} (hc : c.Loaded)
    (h : Program.compile ⟨c, true⟩ source = .ok p) :
    ∃ t before after, Program.Stages ⟨c, true⟩ source p t before after ∧
      (EventFree c t before → ∀ {V : Type} (host : Host V),
        (∀ σ, Evaluates host c t before (host.initial after.assembly.heap) σ →
          ∃ s, Machine.Halts host c after.assembly s ∧ ∀ x, ¬ Reserved x → s.store x = σ x) ∧
        ∀ s, Machine.Halts host c after.assembly s →
          ∃ σ, Evaluates host c t before (host.initial after.assembly.heap) σ ∧
            ∀ x, ¬ Reserved x → s.store x = σ x) := by
  obtain ⟨t, before, after, hstages⟩ := Program.compile_stages h
  refine ⟨t, before, after, hstages, fun hfree V host => ?_⟩
  obtain ⟨x, -, hholds⟩ := Tree.read?_ok (Tree.read_eq_ok_iff.mp hstages.read)
  obtain ⟨hcoherent, hdoes⟩ := does_tree hholds rfl hc.indexed
    (Program.resolved_prepared hstages.resolved) hstages.generated hfree
  refine ⟨fun σ hσ => ?_, fun s hs => ?_⟩
  · obtain ⟨n, v, heval⟩ := hσ
    have hdoes := hdoes host n
    rw [heval] at hdoes
    obtain ⟨k, τ, hrun, hleaves⟩ := hdoes
    exact ⟨_, hcoherent.halts hrun, fun x hx => hleaves.vars x hx (by simp)⟩
  · -- More rounds than the machine takes steps are enough for every loop.
    obtain ⟨hplace, k, hhalts⟩ := hs
    have hdoes := hdoes host (k + 1)
    cases heval : eval host c t before (k + 1) t.size Tree.root
        (host.initial after.assembly.heap) with
    | none =>
      rw [heval] at hdoes
      obtain ⟨k', s', hle, hrun⟩ := hdoes
      have := le_of_runFor hhalts (Machine.step_of_end hcoherent.laid hplace)
        (Machine.runFor_addressed hcoherent.laid hcoherent.lands hrun)
      omega
    | some r =>
      obtain ⟨σ, v⟩ := r
      rw [heval] at hdoes
      obtain ⟨k', τ, hrun, hleaves⟩ := hdoes
      obtain rfl := Machine.Halts.unique hcoherent.laid ⟨hplace, k, hhalts⟩ (hcoherent.halts hrun)
      exact ⟨σ, ⟨k + 1, v, heval⟩, fun x hx => hleaves.vars x hx (by simp)⟩

/-! ## An example -/

/-- The nodes of a tree that assigns a choice among literals to a variable. -/
def AssignsChoice (name : String) (t : Tree) (w : Workspace) : Prop :=
  ∀ id < w.findings.size, w.construct? id = none ∨ w.construct? id = some .literal ∨
    (w.construct? id = some .set ∧ name? t id = some name) ∨
    (w.construct? id = some .conditional ∧ (t.children id).length % 2 = 1)

instance (name : String) (t : Tree) (w : Workspace) : Decidable (AssignsChoice name t w) :=
  inferInstanceAs (Decidable (∀ id < w.findings.size, _))

theorem AssignsChoice.eventFree {name : String} {w : Workspace} (h : AssignsChoice name t w)
    (hname : ¬ Reserved name) : EventFree Catalog.empty t w := by
  have hnode : ∀ id construct, w.construct? id = some construct → construct = .literal ∨
      (construct = .set ∧ name? t id = some name) ∨
      (construct = .conditional ∧ (t.children id).length % 2 = 1) := by
    intro id construct hconstruct
    have hlt : id < w.findings.size := by
      by_contra hge
      rw [construct?, finding, Array.getD_eq_getD_getElem?,
        Array.getElem?_eq_none (Nat.le_of_not_lt hge)] at hconstruct
      cases hconstruct
    have hcases := h id hlt
    rw [hconstruct] at hcases
    simpa using hcases
  refine ⟨fun id construct hid => ?_, fun id hid other hother => ?_, fun other hother => ?_,
    fun id _ hid => ?_, fun id _ hid => ?_, fun id op _ hid => ?_⟩
  · rcases hnode id construct hid with rfl | ⟨rfl, -⟩ | ⟨rfl, -⟩ <;> trivial
  · rcases hid with hid | hid | hid
    · simpa using hnode id _ hid
    · obtain ⟨-, hsame⟩ : True ∧ name? t id = some name := by simpa using hnode id _ hid
      obtain rfl := Option.some.inj (hsame.symm.trans hother)
      exact hname
    · simpa using hnode id _ hid
  · -- The one name that is predefined there is not reserved.
    have hresult : ¬ Reserved Catalog.returnValue := by
      unfold Reserved
      decide +kernel
    have hne : Catalog.returnValue ≠ other := fun heq => hresult (heq ▸ hother)
    exact if_neg hne
  · simpa using hnode id _ hid
  · simpa using hnode id _ hid
  · simpa using hnode id _ hid

/-- A conditional whose value is assigned runs to its end just when it can be evaluated. -/
theorem Program.compile_preserves_conditional :
    ∃ t before after p,
      Program.compile ⟨Catalog.empty, true⟩ "=(x,if(true,1,2))" = .ok p ∧
      Program.Stages ⟨Catalog.empty, true⟩ "=(x,if(true,1,2))" p t before after ∧
      EventFree Catalog.empty t before ∧ ∀ {V : Type} (host : Host V),
        (∀ σ, Evaluates host Catalog.empty t before (host.initial after.assembly.heap) σ →
          ∃ s, Machine.Halts host Catalog.empty after.assembly s ∧ s.store "x" = σ "x") ∧
        ∀ s, Machine.Halts host Catalog.empty after.assembly s →
          ∃ σ, Evaluates host Catalog.empty t before (host.initial after.assembly.heap) σ ∧
            s.store "x" = σ "x" := by
  have hok : (Program.compile ⟨Catalog.empty, true⟩ "=(x,if(true,1,2))").isOk = true := by
    decide +kernel
  obtain ⟨p, hp⟩ := exists_ok_of_isOk hok
  obtain ⟨t, before, after, hstages, hsame⟩ := Program.compile_preserves (Or.inl rfl) hp
  have hname : ¬ Reserved "x" := by
    unfold Reserved
    decide +kernel
  have hfree : EventFree Catalog.empty t before := by
    have hnodes : (Tree.read "=(x,if(true,1,2))").toOption.all (fun t =>
        (Program.resolved ⟨Catalog.empty, true⟩ t).toOption.all fun w =>
          decide (AssignsChoice "x" t w)) := by
      decide +kernel
    rw [hstages.read] at hnodes
    simp only [Except.toOption, Option.all_some, hstages.resolved] at hnodes
    exact (of_decide_eq_true hnodes).eventFree hname
  refine ⟨t, before, after, p, hp, hstages, hfree, fun host => ⟨fun σ hσ => ?_, fun s hs => ?_⟩⟩
  · obtain ⟨s, hs, hvars⟩ := (hsame hfree host).1 σ hσ
    exact ⟨s, hs, hvars "x" hname⟩
  · obtain ⟨σ, hσ, hvars⟩ := (hsame hfree host).2 s hs
    exact ⟨σ, hσ, hvars "x" hname⟩

end SexprAsm
