import SexprAsm.Proofs.Resolution.Changes
import SexprAsm.Proofs.Resolution.Visits

/-!
# The slots of return addresses

The first block of a label, in the order of the visits, makes a slot for the return address of the
event, under a name that is free by then (`Resolution.declareEntryPoint_spec`). A variable declared
before it has another name. One declared after it may have the same name: then it gives the slot
its own initial value, and cannot change the type (`Resolution.Points`).
-/

namespace SexprAsm

open Resolution

/-- The node declares a variable of this name. -/
def Tree.Declares (t : Tree) (id : NodeId) (name : String) : Prop :=
  t.tag id = .string Keyword.declare ∧ (t.node id).isLeaf = false ∧
    t.Named ((t.children id).headD 0) name

instance (t : Tree) (id : NodeId) (name : String) : Decidable (t.Named id name) :=
  inferInstanceAs (Decidable (_ ∧ _))

instance (t : Tree) (id : NodeId) (name : String) : Decidable (t.Declares id name) :=
  inferInstanceAs (Decidable (_ ∧ _ ∧ _))

theorem Tree.Declares.unique {t : Tree} {id : NodeId} {name name' : String}
    (h : t.Declares id name) (h' : t.Declares id name') : name' = name :=
  h.2.2.unique h'.2.2

namespace Resolution

variable {cfg : Setting} {t : Tree} {w w' : Workspace} {visited : List NodeId} {id : NodeId}
  {label pointer : String} {heap heap' : Heap}

/-! ## What visits leave of it -/

/-- The slot for the return address of an event, after some nodes have been visited: a variable of
its name is declared only behind a block of the event, and if none is, the slot is as it was
made. -/
structure Points (cfg : Setting) (t : Tree) (visited : List NodeId) (heap : Heap)
    (label pointer : String) : Prop where
  lead : (Workspace.pointerLead label).toList <+: pointer.toList
  opened : ∃ block ∈ visited, t.eventLabel? block = some label
  declared : ∀ id ∈ visited, t.Declares id pointer →
    ∃ block, t.eventLabel? block = some label ∧ [block, id].Sublist visited
  slot : ∃ v, heap.slots.get? pointer = some v ∧ v.type = cfg.catalog.pointerSlot.type ∧
    ((∀ id ∈ visited, ¬ t.Declares id pointer) → v = cfg.catalog.pointerSlot)

/-- Visits leave every event with the slot for its return address, and every variable with its
own. -/
structure Pointed (cfg : Setting) (t : Tree) (visited : List NodeId) (w : Workspace) : Prop where
  slots : ∀ id ∈ visited, ∀ name, t.Declares id name →
    w.assembly.heap.slots.contains name = true
  pointers : ∀ label entry, w.entryPoints.get? label = some entry →
    Points cfg t visited w.assembly.heap label entry.returnPointer

/-- One more visit: the slot keeps its type, and only a declaration of its name changes it. -/
theorem Points.visit (h : Points cfg t visited heap label pointer)
    (hslot : ∀ v, heap.slots.get? pointer = some v → ∃ v', heap'.slots.get? pointer = some v' ∧
      v'.type = v.type ∧ (¬ t.Declares id pointer → v' = v)) :
    Points cfg t (visited ++ [id]) heap' label pointer := by
  obtain ⟨block, hblock, hlabel⟩ := h.opened
  refine ⟨h.lead, ⟨block, List.mem_append_left _ hblock, hlabel⟩,
    fun other hother hdeclares => ?_, ?_⟩
  · rcases List.mem_append.mp hother with hother | hother
    · obtain ⟨block', hlabel', hsub⟩ := h.declared other hother hdeclares
      exact ⟨block', hlabel', hsub.trans (List.sublist_append_left _ _)⟩
    · -- The event has been opened before this visit.
      obtain rfl := List.mem_singleton.mp hother
      exact ⟨block, hlabel, (List.singleton_sublist.mpr hblock).append (.refl [other])⟩
  · obtain ⟨v, hv, htype, hsame⟩ := h.slot
    obtain ⟨v', hv', htype', hsame'⟩ := hslot v hv
    refine ⟨v', hv', htype'.trans htype, fun hnone => ?_⟩
    rw [hsame' (hnone id (by simp)), hsame fun other hother => hnone other (by simp [hother])]

theorem Points.visit_extends (h : Points cfg t visited heap label pointer)
    (hext : heap.Extends heap') : Points cfg t (visited ++ [id]) heap' label pointer :=
  h.visit fun v hv => ⟨v, hext.slots pointer v hv, rfl, fun _ => rfl⟩

theorem Pointed.extends (h : Pointed cfg t visited w)
    (hext : w.assembly.heap.Extends w'.assembly.heap) (hentries : w'.entryPoints = w.entryPoints) :
    Pointed cfg t visited w' := by
  refine ⟨fun id hid name hname => hext.contains (h.slots id hid name hname),
    fun label entry hentry => ?_⟩
  obtain ⟨hlead, hopened, hdeclared, v, hv, hslot⟩ := h.pointers label entry (hentries ▸ hentry)
  exact ⟨hlead, hopened, hdeclared, v, hext.slots _ v hv, hslot⟩

/-- A node that declares no variable adds none. -/
theorem Pointed.slots_visit (h : Pointed cfg t visited w) (hno : ∀ name, ¬ t.Declares id name)
    (hext : w.assembly.heap.Extends heap) :
    ∀ other ∈ visited ++ [id], ∀ name, t.Declares other name → heap.slots.contains name = true := by
  intro other hother name hname
  rcases List.mem_append.mp hother with hother | hother
  · exact hext.contains (h.slots other hother name hname)
  · obtain rfl := List.mem_singleton.mp hother
    exact absurd hname (hno name)

theorem Pointed.declareVariable (h : Pointed cfg t visited w)
    (htag : t.tag id = .string Keyword.declare) (hleaf : (t.node id).isLeaf = false)
    (hyields : Yields (declareVariable cfg t id) w () w') : Pointed cfg t (visited ++ [id]) w' := by
  obtain ⟨name, type, attributes, value, heap, hname, hdefine, rfl⟩ := declareVariable_cases hyields
  have hdeclares : t.Declares id name := ⟨htag, hleaf, hname⟩
  have htypes := Heap.define_keepsTypes hdefine
  obtain ⟨-, rfl⟩ := Heap.define_ok hdefine
  refine ⟨fun other hother name' hname' => ?_, fun label entry hentry =>
    (h.pointers label entry hentry).visit fun v hv => ?_⟩
  · rcases List.mem_append.mp hother with hother | hother
    · obtain ⟨v, hv⟩ := OrderedMap.contains_iff.mp (h.slots other hother name' hname')
      obtain ⟨v', hv', -⟩ := htypes name' v hv
      exact OrderedMap.contains_iff.mpr ⟨v', hv'⟩
    · obtain rfl := List.mem_singleton.mp hother
      obtain rfl := hdeclares.unique hname'
      exact OrderedMap.contains_iff.mpr ⟨_, by rw [OrderedMap.get?_put, if_pos rfl]⟩
  · -- The slot is defined again only if the variable has its name.
    obtain ⟨v', hv', htype⟩ := htypes _ v hv
    refine ⟨v', hv', htype, fun hno => ?_⟩
    have hne : entry.returnPointer ≠ name := fun heq => hno (heq ▸ hdeclares)
    rw [OrderedMap.get?_put, if_neg hne] at hv'
    exact Option.some.inj (hv'.symm.trans hv)

theorem Pointed.declareEntryPoint {entry : EntryPoint} (h : Pointed cfg t visited w)
    (hevent : t.isEvent id = true) (hlabel : t.eventLabel? id = some label)
    (hyields : Yields (Build.declareEntryPoint cfg label) w entry w') :
    Pointed cfg t (visited ++ [id]) w' := by
  obtain ⟨heap, -, hext, rfl, hentry⟩ := declareEntryPoint_spec hyields
  have hno : ∀ name, ¬ t.Declares id name :=
    fun name hname => Tree.not_declare_of_isEvent hevent hname.1
  refine ⟨h.slots_visit hno hext, fun other found hfound => ?_⟩
  rcases OrderedMap.get?_put_eq_some.mp hfound with ⟨rfl, rfl⟩ | ⟨-, hold⟩
  · rcases hentry with ⟨known, hknown, rfl⟩ | ⟨-, pointer, rfl, hlead, hnew, hslot⟩
    · exact (h.pointers other known hknown).visit_extends hext
    · -- Variables that have been declared have slots, so none of them has the new name.
      have hfree : ∀ node ∈ visited ++ [id], ¬ t.Declares node pointer := by
        intro node hnode hdeclares
        rcases List.mem_append.mp hnode with hnode | hnode
        · have hcontains := h.slots node hnode _ hdeclares
          rw [OrderedMap.contains, hnew] at hcontains
          cases hcontains
        · exact hno _ (List.mem_singleton.mp hnode ▸ hdeclares)
      exact ⟨hlead, ⟨id, by simp, hlabel⟩, fun node hnode hname => absurd hname (hfree node hnode),
        _, hslot, rfl, fun _ => rfl⟩
  · exact (h.pointers other found hold).visit_extends hext

theorem Pointed.declareNode {visit : Bool} (h : Pointed cfg t visited w)
    (hyields : Yields (declareNode cfg t id) w visit w') : Pointed cfg t (visited ++ [id]) w' := by
  rcases (declareNode_cases hyields).2 with ⟨htag, hleaf, hvariable⟩ |
    ⟨hevent, first, label, entry, hfirst, hlabel, hentry⟩ | ⟨hleaf, -, rfl⟩
  · exact h.declareVariable htag hleaf hvariable
  · exact h.declareEntryPoint hevent (Tree.eventLabel?_eq_some hevent hfirst hlabel.1) hentry
  · have hno : ∀ name, ¬ t.Declares id name := by
      rintro name ⟨htag, hinner, -⟩
      rw [hleaf htag] at hinner
      cases hinner
    exact ⟨h.slots_visit hno (.refl _),
      fun label entry hentry => (h.pointers label entry hentry).visit_extends (.refl _)⟩

end Resolution

/-- Resolution that succeeds leaves every event with the slot for its return address. -/
theorem Program.resolved_pointed {cfg : Setting} {t : Tree} {before : Workspace}
    (h : Program.resolved cfg t = .ok before) : Resolution.Pointed cfg t t.visits before := by
  obtain ⟨w₁, hlevels, hclassify, -⟩ := Program.resolved_visits h
  have hstart : Pointed cfg t [] (.forTree t) :=
    ⟨by simp, fun label entry hentry => by cases hentry⟩
  have hpointed : Pointed cfg t t.visits w₁ :=
    (declareLevels_visits hlevels).2.keeps (P := Pointed cfg t) Pointed.declareNode hstart
  obtain ⟨hext, hentries⟩ := keeps_of_consults ((classifyAll_consults _).of_yields hclassify)
  exact hpointed.extends hext hentries

end SexprAsm
