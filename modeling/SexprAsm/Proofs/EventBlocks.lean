import SexprAsm.Proofs.Resolution
import SexprAsm.Proofs.Tree.Links

/-!
# Blocks of events

A node `when(label, body)` is a block of the event `label`. Resolution counts the blocks of every
label among the nodes that it visits, and no node that it has not visited is compiled as a block
(`Program.resolved_blocks`). So the count bounds the number of blocks that can be compiled.
-/

namespace SexprAsm

/-- No block of an event stands inside another one. -/
def Tree.NoNestedEvents (t : Tree) : Prop :=
  ∀ outer inner, t.isEvent outer = true → t.isEvent inner = true →
    t.isAncestorOrSelf outer inner = true → outer = inner

/-- The number of blocks that have been declared for a label. -/
def Workspace.blocksOf (w : Workspace) (label : String) : Nat :=
  ((w.entryPoints.get? label).map (·.blocks)).getD 0

namespace Tree

variable {t : Tree} {id : NodeId}

theorem lt_size_of_isEvent (h : t.isEvent id = true) : id < t.size := by
  refine Nat.lt_of_not_le fun hle => ?_
  have htag := (isEvent_iff.mp h).1
  rw [tag, node_of_le hle] at htag
  cases htag

instance (t : Tree) : Decidable t.NoNestedEvents :=
  decidable_of_iff (∀ outer < t.size, ∀ inner < t.size, t.isEvent outer = true →
      t.isEvent inner = true → t.isAncestorOrSelf outer inner = true → outer = inner) <| by
    refine ⟨fun h outer inner houter hinner => ?_,
      fun h outer _ inner _ houter hinner => h outer inner houter hinner⟩
    exact h outer (lt_size_of_isEvent houter) inner (lt_size_of_isEvent hinner) houter hinner

end Tree

namespace Resolution

variable {cfg : Setting} {t : Tree} {w w' : Workspace}

/-! ## Counting blocks -/

/-- The blocks among some nodes have been counted, each for its label; nothing has been found out
about nodes. -/
structure Counts (t : Tree) (ids : List NodeId) (w w' : Workspace) : Prop where
  findings : w'.findings = w.findings
  blocks : ∀ label,
    w'.blocksOf label = w.blocksOf label + ids.countP (t.eventLabel? · = some label)

theorem Counts.refl (w : Workspace) : Counts t [] w w := ⟨rfl, fun _ => rfl⟩

theorem Counts.append {ids ids' : List NodeId} {w'' : Workspace} (h : Counts t ids w w')
    (h' : Counts t ids' w' w'') : Counts t (ids ++ ids') w w'' := by
  refine ⟨h'.findings.trans h.findings, fun label => ?_⟩
  rw [h'.blocks, h.blocks, List.countP_append, Nat.add_assoc]

/-- A node that is no block of an event does not count. -/
theorem Counts.ofNone {id : NodeId} (hnone : t.eventLabel? id = none)
    (hfindings : w'.findings = w.findings) (hentries : w'.entryPoints = w.entryPoints) :
    Counts t [id] w w' := by
  refine ⟨hfindings, fun label => ?_⟩
  rw [Workspace.blocksOf, hentries, List.countP_singleton, hnone]
  rfl

theorem declareEntryPoint_counts {id : NodeId} {label : String} {entry : EntryPoint}
    (h : Yields (Build.declareEntryPoint cfg label) w entry w')
    (hlabel : t.eventLabel? id = some label) : Counts t [id] w w' := by
  obtain ⟨heap, -, -, rfl, hentry⟩ := declareEntryPoint_spec h
  -- Whether the entry point was there or not, it has one more block than it had.
  have hblocks : entry.blocks = w.blocksOf label + 1 := by
    rcases hentry with ⟨known, hknown, rfl⟩ | ⟨hnone, pointer, rfl, -⟩
    · rw [Workspace.blocksOf, hknown]
      rfl
    · rw [Workspace.blocksOf, hnone]
      rfl
  refine ⟨rfl, fun other => ?_⟩
  rw [List.countP_singleton, hlabel, Workspace.blocksOf, OrderedMap.get?_put]
  by_cases hother : other = label
  · subst hother
    simpa using hblocks
  · simp [hother, Ne.symm hother, Workspace.blocksOf]

theorem declareNode_counts {id : NodeId} {visit : Bool}
    (h : Yields (declareNode cfg t id) w visit w') : Counts t [id] w w' := by
  rcases (declareNode_cases h).2 with ⟨htag, -, hvariable⟩ |
    ⟨hevent, first, label, entry, hfirst, hlabel, hentry⟩ | ⟨-, hevent, rfl⟩
  · obtain ⟨heap, -, rfl⟩ := declareVariable_keeps hvariable
    exact .ofNone (Tree.eventLabel?_eq_none fun hevent => Tree.not_declare_of_isEvent hevent htag)
      rfl rfl
  · exact declareEntryPoint_counts hentry (Tree.eventLabel?_eq_some hevent hfirst hlabel.1)
  · exact .ofNone (Tree.eventLabel?_eq_none (by simp [hevent])) rfl rfl

theorem Visits.counts {ids : List NodeId} (h : Visits cfg t ids w w') : Counts t ids w w' :=
  h.keeps (P := fun ids w' => Counts t ids w w')
    (fun hcounts hnode => hcounts.append (declareNode_counts hnode)) (.refl w)

/-! ## Nodes that are blocks -/

/-- The declared blocks stay the same, and no other node becomes a block. -/
def SameEvents (w w' : Workspace) : Prop :=
  w'.entryPoints = w.entryPoints ∧
    ∀ id, w'.construct? id = some .event → w.construct? id = some .event

theorem classify_events {id : NodeId} {found : Finding}
    (h : Yields (classify cfg t id) w found w') : SameEvents w w' := by
  rcases classify_cases h with ⟨-, -, rfl⟩ | ⟨hleaf, ⟨-, hsequence⟩ | ⟨tag, htag, htagged⟩ |
    ⟨-, -, -, rfl⟩⟩
  · exact ⟨rfl, fun _ hid => hid⟩
  · rcases (sequenceFinding_cases hsequence).2 with ⟨rfl, -⟩ | ⟨only, bare, -, hbare, rfl⟩
    · exact ⟨rfl, fun _ hid => hid⟩
    · -- The item that is recorded is a call.
      refine ⟨rfl, fun other hother => ?_⟩
      rcases construct?_record hother with ⟨-, hevent⟩ | hother
      · rcases bareCall?_cases hbare with ⟨_, _, -, hcall⟩ | hcall <;>
          cases hcall.symm.trans hevent
      · exact hother
  · obtain ⟨heap, -, rfl, -⟩ := taggedFinding_spec htagged htag hleaf
    exact ⟨rfl, fun _ hid => hid⟩
  · exact ⟨rfl, fun _ hid => hid⟩

theorem classifyAll_events {ids : List NodeId} (h : Yields (classifyAll cfg t ids) w () w') :
    w'.entryPoints = w.entryPoints ∧
      ∀ id, w'.construct? id = some .event → w.construct? id = some .event ∨ id ∈ ids := by
  induction ids generalizing w with
  | nil =>
    obtain ⟨-, rfl⟩ := Yields.pure_iff.mp h
    exact ⟨rfl, fun _ hid => Or.inl hid⟩
  | cons id ids ih =>
    simp only [classifyAll, Yields.bind_iff, Yields.modify_iff, Compilation.at_iff] at h
    obtain ⟨found, w₁, hclassify, _, _, rfl, hrest⟩ := h
    obtain ⟨hentries, hevents⟩ := classify_events hclassify
    obtain ⟨hentries', hevents'⟩ := ih hrest
    refine ⟨hentries'.trans hentries, fun other hother => ?_⟩
    rcases hevents' other hother with hother | hmem
    · rcases construct?_record hother with ⟨rfl, -⟩ | hother
      · exact Or.inr List.mem_cons_self
      · exact Or.inl (hevents other hother)
    · exact Or.inr (List.mem_cons_of_mem _ hmem)

end Resolution

/-- The blocks of each label have been counted among some nodes, and all nodes that are compiled as
blocks are among them. -/
theorem Program.resolved_blocks {cfg : Setting} {t : Tree} {w : Workspace}
    (h : Program.resolved cfg t = .ok w) :
    ∃ order : List NodeId, (∀ id, w.construct? id = some .event → id ∈ order) ∧
      ∀ label, w.blocksOf label = order.countP (t.eventLabel? · = some label) := by
  obtain ⟨order, declared, hlevels, hclassify⟩ := Program.resolved_stages h
  have hcounts := (Resolution.declareLevels_visits hlevels).2.counts
  obtain ⟨hentries, hevents⟩ := Resolution.classifyAll_events hclassify
  refine ⟨order, fun id hid => ?_, fun label => ?_⟩
  · rcases hevents id hid with hid | hmem
    · -- Before the nodes are classified, nothing has been found out about them.
      rw [Workspace.construct?, Workspace.finding, hcounts.findings] at hid
      cases (Resolution.construct?_forTree id).symm.trans hid
    · exact List.mem_reverse.mp hmem
  · rw [Workspace.blocksOf, hentries]
    exact (hcounts.blocks label).trans (Nat.zero_add _)

/-- There are no more nodes to compile for a label than blocks have been declared for it. -/
theorem Program.length_le_blocksOf {cfg : Setting} {t : Tree} {w : Workspace}
    (h : Program.resolved cfg t = .ok w) {label : String} {ids : List NodeId} (hnodup : ids.Nodup)
    (hids : ∀ id ∈ ids, w.construct? id = some .event ∧ t.eventLabel? id = some label) :
    ids.length ≤ w.blocksOf label := by
  obtain ⟨order, hvisited, hblocks⟩ := Program.resolved_blocks h
  rw [hblocks, List.countP_eq_length_filter]
  refine (List.subperm_of_subset hnodup fun id hid => ?_).length_le
  obtain ⟨hconstruct, hlabel⟩ := hids id hid
  exact List.mem_filter.mpr ⟨hvisited id hconstruct, decide_eq_true hlabel⟩

end SexprAsm
