import SexprAsm.Proofs.Lockstep

/-!
# Nodes under other numbers

The nodes of a tree may stand in another tree under other numbers (`Tree.Embeds`). Two compilations
then know the same of a node and of the one that stands for it, while all else in their workspaces
is the same (`Workspace.Renumbered`).

Most of what a compilation does has nothing to do with what is known of nodes: it is blind to the
difference, and such steps run in lockstep with themselves (`Blind`).
-/

namespace SexprAsm

/-- Every node of a tree stands in another one under a number of its own, with its tag and its
children. -/
structure Tree.Embeds (t t' : Tree) (f : NodeId → NodeId) : Prop where
  tag : ∀ id, t'.tag (f id) = t.tag id
  children : ∀ id, t'.children (f id) = (t.children id).map f
  injective : Function.Injective f
  lt_iff : ∀ id, f id < t'.size ↔ id < t.size

/-- The same is known of every node under either number, and all else is the same. -/
structure Workspace.Renumbered (f : NodeId → NodeId) (w w' : Workspace) : Prop where
  rest : w' = { w with findings := w'.findings }
  finding : ∀ id, w'.finding (f id) = w.finding id
  lt_iff : ∀ id, f id < w'.findings.size ↔ id < w.findings.size

/-- A change that neither reads nor changes what is known of nodes. -/
def Workspace.Unconcerned (g : Workspace → Workspace) : Prop :=
  ∀ (w : Workspace) (findings : Array Finding),
    g { w with findings := findings } = { g w with findings := findings }

/-- A step does the same whatever is known of nodes, and leaves that as it is. -/
def Blind {ε α : Type} (act : EStateM ε Workspace α) : Prop :=
  ∀ f, Lockstep (Workspace.Renumbered f) id id act act

namespace Workspace.Renumbered

variable {f : NodeId → NodeId} {w w' : Workspace}

/-- What has nothing to do with findings keeps them renumbered. -/
theorem map (h : Renumbered f w w') {g : Workspace → Workspace} (hg : Unconcerned g) :
    Renumbered f (g w) (g w') := by
  obtain ⟨hrest, hfinding, hlt⟩ := h
  have hkeeps (w : Workspace) : (g w).findings = w.findings := by
    have hsame : g w = { g w with findings := w.findings } := hg w w.findings
    rw [hsame]
  refine ⟨?_, fun id => ?_, fun id => ?_⟩
  · rw [hkeeps w', ← hg w w'.findings, ← hrest]
  · rw [Workspace.finding, Workspace.finding, hkeeps, hkeeps]
    exact hfinding id
  · rw [hkeeps, hkeeps]
    exact hlt id

theorem nodeType? (h : Renumbered f w w') (id : NodeId) : w'.nodeType? (f id) = w.nodeType? id := by
  rw [Workspace.nodeType?, h.finding, Workspace.nodeType?]

theorem construct? (h : Renumbered f w w') (id : NodeId) :
    w'.construct? (f id) = w.construct? id := by
  rw [Workspace.construct?, h.finding, Workspace.construct?]

/-- Where nothing is known, the same is known under all numbers. -/
theorem forTree {t t' : Tree} (h : t.Embeds t' f) : Renumbered f (.forTree t) (.forTree t') := by
  refine ⟨rfl, fun id => ?_, fun id => ?_⟩
  · simp only [Workspace.forTree, Workspace.finding, Array.getD_eq_getD_getElem?,
      Array.getElem?_replicate]
    split <;> split <;> rfl
  · simp only [Workspace.forTree, Array.size_replicate]
    exact h.lt_iff id

end Workspace.Renumbered

namespace Blind

variable {ε α β : Type}

theorem pure (a : α) : Blind (Pure.pure a : EStateM ε Workspace α) := fun _ => .pure rfl

theorem throw (e : ε) : Blind (MonadExcept.throw e : EStateM ε Workspace α) := fun _ => .throw rfl

theorem bind {act : EStateM ε Workspace α} {next : α → EStateM ε Workspace β} (h : Blind act)
    (hnext : ∀ a, Blind (next a)) : Blind (act >>= next) :=
  fun f => (h f).bind fun a => hnext a f

/-- Reading what has nothing to do with findings. -/
theorem get_bind {next : Workspace → EStateM ε Workspace β}
    (hsame : ∀ (w : Workspace) (findings : Array Finding),
      next { w with findings := findings } = next w)
    (hnext : ∀ w, Blind (next w)) : Blind (get >>= next) := by
  refine fun f => .get_bind fun w w' hw => ?_
  have hnext' : next w' = next w := by
    rw [hw.rest]
    exact hsame w _
  rw [hnext']
  exact hnext w f

theorem modify {g : Workspace → Workspace} (hg : Workspace.Unconcerned g) :
    Blind (modify g : EStateM ε Workspace PUnit) :=
  fun _ => .modify fun _ _ hw => hw.map hg

theorem buildEmit (act : Emit α) : Blind (Build.emit act) := by
  intro f w w' hw
  have hsame : w'.assembly = w.assembly := by rw [hw.rest]
  cases hact : act w.assembly with
  | ok a assembly =>
    refine Or.inl ⟨a, { w with assembly := assembly }, { w' with assembly := assembly }, ?_, ?_, ?_⟩
    · exact Build.emit_iff.mpr ⟨assembly, hact, rfl⟩
    · exact Build.emit_iff.mpr ⟨assembly, hsame ▸ hact, rfl⟩
    · exact ⟨by rw [hw.rest], hw.finding, hw.lt_iff⟩
  | error e assembly =>
    refine Or.inr ⟨e, { w with assembly := assembly }, { w' with assembly := assembly }, ?_, ?_⟩
    · rw [Build.emit, hact]
    · rw [Build.emit, hsame, hact]
      rfl

theorem build {act : Build α} (h : Blind act) : Blind (Compile.build act) :=
  fun f => (h f).adaptExcept fun _ => rfl

theorem emit (act : Emit α) : Blind (Compile.emit act) := (buildEmit act).build

end Blind

/-! ## Building -/

namespace Build

variable {cfg : Setting}

theorem firstFree_blind (name : Nat → String) (tries n : Nat) :
    Blind (firstFree cfg name tries n) := by
  induction tries generalizing n with
  | zero => exact .pure _
  | succ tries ih =>
    refine .bind (.buildEmit _) fun found => ?_
    cases found with
    | none => exact .pure _
    | some type => exact ih (n + 1)

theorem nameTries_blind : Blind (nameTries cfg) := .get_bind (fun _ _ => rfl) fun _ => .pure _

theorem defineReturnPointer_blind (label : String) : Blind (defineReturnPointer cfg label) :=
  nameTries_blind.bind fun _ => (firstFree_blind _ _ _).bind fun _ =>
    (Blind.buildEmit _).bind fun _ => .pure _

theorem declareEntryPoint_blind (label : String) : Blind (declareEntryPoint cfg label) := by
  refine .get_bind (fun _ _ => rfl) fun w => ?_
  have hcount (entry : EntryPoint) : Blind (ε := BuildError) (do
      modify fun w : Workspace => { w with entryPoints := w.entryPoints.put label entry }
      return entry) :=
    .bind (.modify fun _ _ => rfl) fun _ => .pure _
  dsimp only
  split
  next => exact hcount _
  next => exact .bind (defineReturnPointer_blind label) fun _ => hcount _

theorem rent_blind (type : TypeId) : Blind (rent cfg type) := by
  refine .get_bind (fun _ _ => rfl) fun w => ?_
  dsimp only
  split
  next => exact .bind (.modify fun _ _ => rfl) fun _ => .pure _
  next =>
    refine .bind nameTries_blind fun tries => .bind (firstFree_blind _ _ _) fun found => ?_
    refine .bind (.modify fun _ _ => rfl) fun _ => .bind (.buildEmit _) fun _ => ?_
    exact .bind (.modify fun _ _ => rfl) fun _ => .pure _

end Build

theorem Workspace.giveBack_unconcerned (name : String) :
    Unconcerned fun w => w.giveBack name := by
  intro w findings
  simp only [giveBack]
  split <;> rfl

/-- Giving back any number of temporaries. -/
theorem Workspace.giveBackAll_unconcerned (names : List String) :
    Unconcerned fun w => names.foldl giveBack w := by
  induction names with
  | nil => exact fun _ _ => rfl
  | cons name names ih =>
    intro w findings
    simp only [List.foldl_cons, giveBack_unconcerned name w findings, ih (w.giveBack name) findings]

end SexprAsm
