import SexprAsm.Program
import SexprAsm.Proofs.Resolution.Declarations

/-!
# What resolution leaves behind

Before code is generated there is no code, no literal has a slot, and no temporary is in use
(`Workspace.Unstarted`). What is recorded of a node is backed by the heap and the catalogue
(`Resolution.Meaning`): a variable that is read has a slot, one that is assigned has a slot or is
not predefined, and the operation of a call can be found under its full name.
-/

namespace SexprAsm

/-- Of an entry point, only its blocks have been counted, and the slot for its return address has
been made. -/
structure EntryPoint.Declared (heap : Heap) (entry : EntryPoint) : Prop where
  compiled : entry.compiled = 0
  bodyStart : entry.bodyStart = none
  chain : entry.chain = none
  landingPoints : entry.landingPoints = []
  pointer : heap.slots.contains entry.returnPointer = true

/-- Nothing has been generated yet. -/
structure Workspace.Unstarted (w : Workspace) : Prop where
  lines : w.assembly.lines = #[]
  pendingLabel : w.assembly.pendingLabel = none
  constants : w.assembly.heap.constants = {}
  rented : w.rented = {}
  pools : w.pools = {}
  entryPoints : ∀ label entry, w.entryPoints.get? label = some entry →
    entry.Declared w.assembly.heap
  pointers : ∀ label label' entry entry', w.entryPoints.get? label = some entry →
    w.entryPoints.get? label' = some entry' → entry.returnPointer = entry'.returnPointer →
    label = label'

namespace Workspace.Unstarted

variable {w : Workspace} (h : w.Unstarted)

include h

/-- Without temporaries there is none that is rented and free. -/
theorem pooled : w.Pooled := by
  refine ⟨fun type pool hpool => ?_, fun type pool hpool => ?_, fun name type htype => ?_⟩
  · rw [h.pools] at hpool
    cases hpool
  · rw [h.pools] at hpool
    cases hpool
  · rw [h.rented] at htype
    cases htype

theorem instructions_eq_nil : w.assembly.instructions = [] := by
  rw [Assembly.instructions, h.lines]
  rfl

theorem length_instructions : w.assembly.instructions.length = 0 := by
  rw [h.instructions_eq_nil, List.length_nil]

/-- No entry point is marked, and none waits for the first line. -/
theorem marks_eq : w.assembly.marks = [none] := by
  rw [Assembly.marks, h.lines, h.pendingLabel]
  rfl

theorem laid : w.assembly.Laid := by
  intro n line hline
  rw [h.lines] at hline
  simp at hline

end Workspace.Unstarted

/-- How the slot for the return address of an event begins. -/
def Workspace.pointerLead (label : String) : String := "__" ++ label ++ "_return"

/-- The slot for a return address, as it is made. -/
def Catalog.pointerSlot (c : Catalog) : Variable :=
  ⟨c.types.builtin TypeTable.uint32Name, {}, some (.uint32 returnAddress)⟩

namespace Resolution

variable {cfg : Setting} {t : Tree} {w w' : Workspace}

/-- A slot that may be written: it is there, or its name is not predefined. -/
def Assignable (c : Catalog) (heap : Heap) (name : String) : Prop :=
  heap.slots.contains name = true ∨ c.predefined.get? name = none

/-- What the construct of a node promises. -/
def Meaning (cfg : Setting) (t : Tree) (heap : Heap) (id : NodeId) : Construct → Prop
  | .get => ∀ child name, (t.children id)[0]? = some child → (t.tag child).text? = some name →
      heap.slots.contains name = true
  | .set => ∀ child name, (t.children id)[0]? = some child → (t.tag child).text? = some name →
      Assignable cfg.catalog heap name
  | .inlineAsm => t.tag id = .string Keyword.inlineAsm ∧ (t.node id).isLeaf = false
  | .sequence => (t.node id).isLeaf = false
  | .event => t.tag id = .string Keyword.event ∧ (t.children id).length = 2
  | .call op => ∃ name arguments, cfg.catalog.resolveOverload name arguments = some op
  | _ => True

/-- A heap with more slots, which may have been declared anew. -/
def Keeps (heap heap' : Heap) : Prop :=
  heap'.constants = heap.constants ∧
    ∀ name, heap.slots.contains name = true → heap'.slots.contains name = true

theorem Keeps.refl (heap : Heap) : Keeps heap heap := ⟨rfl, fun _ h => h⟩

theorem Keeps.trans {heap heap' heap'' : Heap} (h : Keeps heap heap') (h' : Keeps heap' heap'') :
    Keeps heap heap'' :=
  ⟨h'.1.trans h.1, fun name hname => h'.2 name (h.2 name hname)⟩

theorem Meaning.mono {heap heap' : Heap} {id : NodeId} {construct : Construct}
    (h : Meaning cfg t heap id construct)
    (hkeeps : ∀ name, heap.slots.contains name = true → heap'.slots.contains name = true) :
    Meaning cfg t heap' id construct := by
  cases construct with
  | get => exact fun child name hchild hname => hkeeps name (h child name hchild hname)
  | set => exact fun child name hchild hname => (h child name hchild hname).imp_left (hkeeps name)
  | _ => exact h

/-- Nothing has been generated, and what is recorded is backed. -/
structure Prepared (cfg : Setting) (t : Tree) (w : Workspace) : Prop where
  unstarted : w.Unstarted
  meaning : ∀ id construct, w.construct? id = some construct →
    Meaning cfg t w.assembly.heap id construct

theorem construct?_forTree (id : NodeId) : (Workspace.forTree t).construct? id = none := by
  unfold Workspace.construct? Workspace.finding Workspace.forTree
  rw [Array.getD_eq_getD_getElem?]
  simp only [Array.getElem?_replicate]
  split <;> rfl

theorem prepared_forTree (cfg : Setting) (t : Tree) : Prepared cfg t (.forTree t) := by
  refine ⟨⟨rfl, rfl, rfl, rfl, rfl, by rintro _ _ ⟨⟩, by rintro _ _ _ _ ⟨⟩⟩, fun id construct h => ?_⟩
  cases (construct?_forTree id).symm.trans h

theorem Prepared.onHeap (h : Prepared cfg t w) {heap : Heap} (hkeeps : Keeps w.assembly.heap heap) :
    Prepared cfg t { w with assembly := { w.assembly with heap := heap } } := by
  obtain ⟨⟨hlines, hpending, hconstants, hrented, hpools, hentries, hpointers⟩, hmeaning⟩ := h
  refine ⟨⟨hlines, hpending, hkeeps.1.trans hconstants, hrented, hpools, fun label entry hentry => ?_,
    hpointers⟩, fun id construct hconstruct => (hmeaning id construct hconstruct).mono hkeeps.2⟩
  obtain ⟨hcompiled, hstart, hchain, hlanding, hpointer⟩ := hentries label entry hentry
  exact ⟨hcompiled, hstart, hchain, hlanding, hkeeps.2 _ hpointer⟩

theorem finding_record (w : Workspace) (id other : NodeId) (found : Finding) :
    (w.record id found).finding other =
      if other = id ∧ id < w.findings.size then found else w.finding other := by
  simp only [Workspace.finding, Workspace.record, Array.getD_eq_getD_getElem?,
    Array.getElem?_setIfInBounds]
  by_cases hid : id = other
  · subst hid
    by_cases hlt : id < w.findings.size <;> simp [hlt]
  · simp [hid, Ne.symm hid]

/-- Recording what a node is changes nothing for the others. -/
theorem construct?_record {id other : NodeId} {found : Finding} {construct : Construct}
    (h : (w.record id found).construct? other = some construct) :
    other = id ∧ found.construct = some construct ∨ w.construct? other = some construct := by
  rw [Workspace.construct?, finding_record] at h
  split at h
  next hid => exact Or.inl ⟨hid.1, h⟩
  next => exact Or.inr h

theorem Prepared.record (h : Prepared cfg t w) {id : NodeId} {found : Finding}
    (hfound : ∀ construct, found.construct = some construct →
      Meaning cfg t w.assembly.heap id construct) : Prepared cfg t (w.record id found) := by
  obtain ⟨⟨hlines, hpending, hconstants, hrented, hpools, hentries, hpointers⟩, hmeaning⟩ := h
  refine ⟨⟨hlines, hpending, hconstants, hrented, hpools, hentries, hpointers⟩,
    fun other construct hother => ?_⟩
  rcases construct?_record hother with ⟨rfl, hconstruct⟩ | hother
  · exact hfound construct hconstruct
  · exact hmeaning other construct hother

/-! ## Declarations

The first pass defines variables and slots for return addresses, and counts blocks. None of this
takes a slot away or makes one constant, so what is assignable stays so (`Keeps`). -/

theorem define_keeps {name : String} {type : Option TypeId} {attributes : Attributes}
    {value : Option Value} (h : Yields (Compile.emit (Emit.define cfg name type attributes value))
      w () w') (hconstant : attributes.constant = false) :
    ∃ heap, Keeps w.assembly.heap heap ∧
      w' = { w with assembly := { w.assembly with heap := heap } } := by
  obtain ⟨heap, hok, rfl⟩ := Compile.define_iff.mp h
  obtain ⟨-, rfl⟩ := Heap.define_ok hok
  refine ⟨_, ⟨if_neg ?_, fun other hother => OrderedMap.contains_put.mpr (Or.inr hother)⟩, rfl⟩
  simp only [Heap.settle]
  split
  · exact Bool.false_ne_true
  · rw [hconstant]
    exact Bool.false_ne_true

theorem typeOf?_keeps {name : String} {found : Option TypeId}
    (h : Yields (Compile.emit (Emit.typeOf? cfg name)) w found w') :
    ∃ heap, Keeps w.assembly.heap heap ∧
      w' = { w with assembly := { w.assembly with heap := heap } } ∧
      (found = none → cfg.catalog.predefined.get? name = none) ∧
      (found ≠ none → heap.slots.contains name = true) := by
  obtain ⟨a, htype, rfl⟩ := Compile.emit_iff.mp h
  obtain ⟨heap, hheap, rfl⟩ := Emit.onHeap_iff.mp htype
  refine ⟨heap, ⟨?_, fun other hother => (Heap.typeOf?_extends hheap).contains hother⟩, rfl, ?_, ?_⟩
  · rcases (Heap.typeOf?_ok hheap).2 with ⟨rfl, -⟩ | ⟨-, pinned, -, hdefine⟩
    · rfl
    · obtain ⟨-, rfl⟩ := Heap.define_ok hdefine
      refine if_neg ?_
      simp only [Heap.settle]
      split <;> exact Bool.false_ne_true
  · rintro rfl
    exact (Heap.typeOf?_none hheap).2.2
  · intro hsome
    rw [(Heap.typeOf?_ok hheap).1] at hsome
    rw [OrderedMap.contains, Option.isSome_iff_ne_none]
    exact fun hnone => hsome (by rw [hnone]; rfl)

theorem modifiers_constant {ids : List NodeId} {type type' : Option TypeId}
    {attributes attributes' : Attributes}
    (h : modifiers cfg t ids (type, attributes) = .ok (type', attributes'))
    (hconstant : attributes.constant = false) : attributes'.constant = false := by
  induction ids generalizing type attributes with
  | nil =>
    obtain ⟨-, rfl⟩ := Prod.mk.inj (Except.ok.inj h)
    exact hconstant
  | cons id ids ih =>
    unfold modifiers at h
    split at h
    next => cases h
    next =>
      split at h
      case h_6 =>
        split at h
        next => exact ih h hconstant
        next => cases h
      all_goals exact ih h hconstant

theorem defaultValue_constant {name : String} {attributes attributes' : Attributes} {id : NodeId}
    {value : Option Value} (h : defaultValue t name attributes id = .ok (attributes', value))
    (hconstant : attributes.constant = false) : attributes'.constant = false := by
  unfold defaultValue at h
  split at h
  next =>
    obtain ⟨rfl, -⟩ := Prod.mk.inj (Except.ok.inj h)
    exact hconstant
  next =>
    split at h
    next =>
      obtain ⟨rfl, -⟩ := Prod.mk.inj (Except.ok.inj h)
      exact hconstant
    next => cases h

theorem lastValue_constant {id : NodeId} {name : String} {attributes attributes' : Attributes}
    {value : Option Value}
    (h : lastValue t id name attributes = .ok (attributes', value))
    (hconstant : attributes.constant = false) : attributes'.constant = false := by
  unfold lastValue at h
  split at h
  · exact defaultValue_constant h hconstant
  · obtain ⟨rfl, -⟩ := Prod.mk.inj (Except.ok.inj h)
    exact hconstant

theorem declareVariable_keeps {id : NodeId} (h : Yields (declareVariable cfg t id) w () w') :
    ∃ heap, Keeps w.assembly.heap heap ∧
      w' = { w with assembly := { w.assembly with heap := heap } } := by
  obtain ⟨name, type, attributes₀, attributes, value, -, hmodifiers, hvalue, hdefine⟩ :=
    declareVariable_iff.mp h
  exact define_keeps hdefine (lastValue_constant hvalue (modifiers_constant hmodifiers rfl))

theorem firstFree_keeps {name : Nat → String} {tries n : Nat} {found : String × Nat}
    (h : Yields (Build.firstFree cfg name tries n) w found w') :
    ∃ heap, Keeps w.assembly.heap heap ∧
      w' = { w with assembly := { w.assembly with heap := heap } } := by
  induction tries generalizing w n with
  | zero =>
    obtain ⟨-, rfl⟩ := Yields.pure_iff.mp h
    exact ⟨_, .refl _, rfl⟩
  | succ tries ih =>
    obtain ⟨type, w₁, htype, h⟩ := Yields.bind_iff.mp h
    obtain ⟨heap, hkeeps, rfl, -⟩ := typeOf?_keeps (Compile.build_iff.mpr htype)
    cases type with
    | none =>
      obtain ⟨-, rfl⟩ := Yields.pure_iff.mp h
      exact ⟨heap, hkeeps, rfl⟩
    | some type =>
      obtain ⟨heap', hkeeps', rfl⟩ := ih h
      exact ⟨heap', hkeeps.trans hkeeps', rfl⟩

/-- The slot for a return address is a new one. -/
theorem defineReturnPointer_spec {label pointer : String}
    (h : Yields (Build.defineReturnPointer cfg label) w pointer w') :
    ∃ heap, Keeps w.assembly.heap heap ∧ w.assembly.heap.Extends heap ∧
      w' = { w with assembly := { w.assembly with heap := heap } } ∧
      (Workspace.pointerLead label).toList <+: pointer.toList ∧
      w.assembly.heap.slots.get? pointer = none ∧
      heap.slots.get? pointer = some cfg.catalog.pointerSlot := by
  simp only [Build.defineReturnPointer, Yields.bind_iff, Yields.pure_iff] at h
  obtain ⟨tries, w₁, htries, ⟨free, n⟩, w₂, hfree, _, _, hdefine, rfl, rfl⟩ := h
  obtain ⟨a, j, hemits, ha, rfl, hnew, hpinned⟩ := Build.firstFree_spec
    (Heap.numberedAfter_injective _) (Yields.bind_iff.mpr ⟨tries, w₁, htries, hfree⟩)
  obtain ⟨_, _, hget, htries⟩ := Yields.bind_iff.mp htries
  obtain ⟨rfl, rfl⟩ := Yields.get_iff.mp hget
  obtain ⟨-, rfl⟩ := Yields.pure_iff.mp htries
  obtain ⟨heap, hkeeps, rfl⟩ := firstFree_keeps hfree
  obtain ⟨heap', hkeeps', hw'⟩ := define_keeps (Compile.build_iff.mpr hdefine) rfl
  obtain ⟨a', hdefine', hsame⟩ := Build.emit_iff.mp hdefine
  have hassembly : { w.assembly with heap := heap } = a := congrArg Workspace.assembly ha
  obtain ⟨hemits', hslot⟩ := Emit.define_spec hdefine' (hassembly ▸ hnew) rfl
  have hheap : a'.heap = heap' :=
    congrArg (fun w : Workspace => w.assembly.heap) (hsame.symm.trans hw')
  subst hassembly hheap
  refine ⟨a'.heap, hkeeps.trans hkeeps', (hemits.trans hemits').heap, hw', ?_,
    hemits.heap.get?_eq_none hnew, ?_⟩
  · dsimp only
    split
    · exact List.prefix_refl _
    · rw [Heap.toList_numbered]
      exact List.prefix_append _ _
  · rw [hslot]
    simp [Heap.settle, hpinned, Catalog.pointerSlot]

/-- What declaring a block does: its label has one more block. The first block of a label makes a
slot for the return address. -/
theorem declareEntryPoint_spec {label : String} {entry : EntryPoint}
    (h : Yields (Build.declareEntryPoint cfg label) w entry w') :
    ∃ heap, Keeps w.assembly.heap heap ∧ w.assembly.heap.Extends heap ∧
      w' = { w with
        assembly := { w.assembly with heap := heap }
        entryPoints := w.entryPoints.put label entry } ∧
      ((∃ known, w.entryPoints.get? label = some known ∧
          entry = { known with blocks := known.blocks + 1 }) ∨
        w.entryPoints.get? label = none ∧ ∃ pointer,
          entry = { returnPointer := pointer, blocks := 1 } ∧
          (Workspace.pointerLead label).toList <+: pointer.toList ∧
          w.assembly.heap.slots.get? pointer = none ∧
          heap.slots.get? pointer = some cfg.catalog.pointerSlot) := by
  simp only [Build.declareEntryPoint, Yields.bind_iff, Yields.get_iff] at h
  obtain ⟨_, _, ⟨rfl, rfl⟩, h⟩ := h
  cases hknown : w.entryPoints.get? label with
  | some known =>
    simp only [hknown, Yields.bind_iff, Yields.pure_iff, Yields.modify_iff] at h
    obtain ⟨_, _, ⟨rfl, rfl⟩, _, _, rfl, rfl, rfl⟩ := h
    exact ⟨_, .refl _, .refl _, rfl, Or.inl ⟨known, rfl, rfl⟩⟩
  | none =>
    simp only [hknown, Yields.bind_iff, Yields.pure_iff, Yields.modify_iff] at h
    obtain ⟨pointer, w₁, hpointer, _, _, ⟨rfl, rfl⟩, _, _, rfl, rfl, rfl⟩ := h
    obtain ⟨heap, hkeeps, hext, rfl, hlead, hnew, hslot⟩ := defineReturnPointer_spec hpointer
    exact ⟨heap, hkeeps, hext, rfl, Or.inr ⟨rfl, pointer, rfl, hlead, hnew, hslot⟩⟩

theorem declareEntryPoint_prepared {label : String} {entry : EntryPoint}
    (h : Yields (Build.declareEntryPoint cfg label) w entry w') (hw : Prepared cfg t w) :
    Prepared cfg t w' := by
  obtain ⟨heap, hkeeps, -, rfl, hentry⟩ := declareEntryPoint_spec h
  obtain ⟨hunstarted, hmeaning⟩ := hw.onHeap hkeeps
  -- The slot of the entry point is its own, whether the entry point was there or not.
  have hdeclared : entry.Declared heap ∧ ∀ other found,
      w.entryPoints.get? other = some found → found.returnPointer = entry.returnPointer →
        other = label := by
    rcases hentry with ⟨known, hknown, rfl⟩ | ⟨-, pointer, rfl, -, hnew, hslot⟩
    · obtain ⟨hcompiled, hstart, hchain, hlanding, hpointer⟩ :=
        hunstarted.entryPoints label known hknown
      exact ⟨⟨hcompiled, hstart, hchain, hlanding, hpointer⟩, fun other found hfound heq =>
        hunstarted.pointers other label found known hfound hknown heq⟩
    · refine ⟨⟨rfl, rfl, rfl, rfl, OrderedMap.contains_iff.mpr ⟨_, hslot⟩⟩,
        fun other found hfound heq => ?_⟩
      -- The slots of the other entry points were there before this one was made.
      obtain ⟨v, hv⟩ :=
        OrderedMap.contains_iff.mp (hw.unstarted.entryPoints other found hfound).pointer
      rw [heq, hnew] at hv
      cases hv
  obtain ⟨hdeclared, hown⟩ := hdeclared
  refine ⟨⟨hunstarted.lines, hunstarted.pendingLabel, hunstarted.constants, hunstarted.rented,
    hunstarted.pools, fun other found hfound => ?_,
    fun one other found found' hfound hfound' heq => ?_⟩, hmeaning⟩
  · rcases OrderedMap.get?_put_eq_some.mp hfound with ⟨-, rfl⟩ | ⟨-, hold⟩
    · exact hdeclared
    · exact hunstarted.entryPoints other found hold
  · rcases OrderedMap.get?_put_eq_some.mp hfound with ⟨rfl, rfl⟩ | ⟨-, hold⟩ <;>
      rcases OrderedMap.get?_put_eq_some.mp hfound' with ⟨rfl, rfl⟩ | ⟨-, hold'⟩
    · rfl
    · exact (hown other found' hold' heq.symm).symm
    · exact hown one found hold heq
    · exact hunstarted.pointers one other found found' hold hold' heq

/-- Declaring a node keeps a workspace prepared. -/
theorem declareNode_prepared {id : NodeId} {visit : Bool}
    (h : Yields (declareNode cfg t id) w visit w') (hw : Prepared cfg t w) :
    Prepared cfg t w' := by
  rcases (declareNode_cases h).2 with ⟨-, -, hvariable⟩ | ⟨-, _, _, _, -, -, hentry⟩ | ⟨-, -, rfl⟩
  · obtain ⟨heap, hkeeps, rfl⟩ := declareVariable_keeps hvariable
    exact hw.onHeap hkeeps
  · exact declareEntryPoint_prepared hentry hw
  · exact hw

/-- The first pass keeps a workspace prepared. -/
theorem Visits.prepared {ids : List NodeId} (h : Visits cfg t ids w w') (hw : Prepared cfg t w) :
    Prepared cfg t w' := by
  induction h with
  | done => exact hw
  | visit first _ ih => exact ih (declareNode_prepared first hw)

/-! ## Meanings

The meaning of a list is found by its tag. All cases are told once (`Finds`), and from them what
the meaning promises, so that no later proof goes through the keywords again. -/

theorem oddItems_map {α β : Type} (g : α → β) :
    ∀ items, oddItems (items.map g) = (oddItems items).map g
  | [] => rfl
  | [_] => rfl
  | _ :: a :: rest => congrArg (g a :: ·) (oddItems_map g rest)

theorem branches_map (f : NodeId → NodeId) (children : List NodeId) :
    branches (children.map f) = (branches children).map f := by
  simp only [branches, oddItems_map, List.length_map, List.getLast?_map, List.map_append]
  split
  · rw [Option.toList_map]
  · rfl

theorem callFinding_meaning {tag : String} {children : List NodeId} {heap : Heap} {id : NodeId}
    {construct : Construct} (h : (callFinding cfg w tag children).construct = some construct) :
    Meaning cfg t heap id construct := by
  cases hoverload : (allTypes w children).bind (cfg.catalog.resolveOverload tag) with
  | some op =>
    simp only [callFinding, hoverload] at h
    obtain rfl := Option.some.inj h
    obtain ⟨types, -, hresolve⟩ := Option.bind_eq_some_iff.mp hoverload
    exact ⟨tag, types, hresolve⟩
  | none =>
    simp only [callFinding, hoverload] at h
    split at h
    case h_1 => contradiction
    case h_2 =>
      obtain rfl := Option.some.inj h
      trivial
    case h_3 =>
      obtain rfl := Option.some.inj h
      trivial
    case h_4 => cases h

/-- A bare name calls an operation or an event. -/
theorem bareCall?_cases {id : NodeId} {found : Finding} (h : bareCall? cfg t w id = some found) :
    (∃ name op, cfg.catalog.resolveOverload name [] = some op ∧
      found.construct = some (.call op)) ∨ found.construct = some .callEvent := by
  simp only [bareCall?] at h
  obtain ⟨name, -, h⟩ := Option.bind_eq_some_iff.mp h
  split at h
  next op hop =>
    obtain rfl := Option.some.inj h
    exact Or.inl ⟨name, op, hop, rfl⟩
  next =>
    obtain ⟨_, -, h⟩ := Option.bind_eq_some_iff.mp h
    obtain rfl := Option.some.inj h
    exact Or.inr rfl

theorem bareCall?_meaning {id : NodeId} {found : Finding} {heap : Heap} {construct : Construct}
    (h : bareCall? cfg t w id = some found) (hconstruct : found.construct = some construct) :
    Meaning cfg t heap id construct := by
  rcases bareCall?_cases h with ⟨name, op, hop, hfound⟩ | hfound
  · obtain rfl := Option.some.inj (hfound.symm.trans hconstruct)
    exact ⟨name, [], hop⟩
  · obtain rfl := Option.some.inj (hfound.symm.trans hconstruct)
    trivial

/-- To find the meaning of a list without a tag, at most its only item is recorded as a call. -/
theorem sequenceFinding_cases {children : List NodeId} {found : Finding}
    (h : Yields (sequenceFinding cfg t children) w found w') :
    found = ⟨some .sequence, children.getLast?.bind w'.nodeType?⟩ ∧
      ((w = w' ∧ ∀ only, children = [only] → bareCall? cfg t w only = none) ∨
        ∃ only bare, children = [only] ∧ bareCall? cfg t w only = some bare ∧
          w' = w.record only bare) := by
  unfold sequenceFinding at h
  split at h
  next only =>
    obtain ⟨_, _, hget, h⟩ := Yields.bind_iff.mp h
    obtain ⟨rfl, rfl⟩ := Yields.get_iff.mp hget
    split at h
    next bare hbare =>
      simp only [Yields.bind_iff, Yields.modify_iff, Yields.get_iff, Yields.pure_iff] at h
      obtain ⟨_, _, rfl, _, _, ⟨rfl, rfl⟩, rfl, rfl⟩ := h
      exact ⟨rfl, Or.inr ⟨only, bare, rfl, hbare, rfl⟩⟩
    next hbare =>
      simp only [Yields.bind_iff, Yields.get_iff, Yields.pure_iff] at h
      obtain ⟨_, _, ⟨rfl, rfl⟩, rfl, rfl⟩ := h
      refine ⟨rfl, Or.inl ⟨rfl, fun other hother => ?_⟩⟩
      obtain rfl : only = other := by simpa using hother
      exact Option.eq_none_iff_forall_ne_some.mpr hbare
  next hmany =>
    simp only [Yields.bind_iff, Yields.get_iff, Yields.pure_iff] at h
    obtain ⟨_, _, ⟨rfl, rfl⟩, rfl, rfl⟩ := h
    exact ⟨rfl, Or.inl ⟨rfl, fun only honly => absurd honly (hmany only)⟩⟩

/-- How the meaning of a tagged list is found: by its keyword, if the children are as the keyword
asks for, and by its name otherwise. -/
inductive Finds (cfg : Setting) (t : Tree) (w : Workspace) (id : NodeId) (tag : String) :
    Finding → Workspace → Prop where
  | declare {name : String} (word : tag = Keyword.declare)
      (named : t.Named ((t.children id).headD 0) name) :
      Finds cfg t w id tag ⟨some .declare, (w.assembly.heap.slots.get? name).map (·.type)⟩ w
  | inlineAsm (word : tag = Keyword.inlineAsm) : Finds cfg t w id tag ⟨some .inlineAsm, none⟩ w
  | conditional (word : tag = Keyword.conditional) (length : 1 < (t.children id).length) :
      Finds cfg t w id tag ⟨some .conditional,
        (allTypes w (branches (t.children id))).bind cfg.catalog.types.commonAncestor⟩ w
  | get {child : NodeId} {name : String} {type : TypeId} {w' : Workspace}
      (word : tag = Keyword.get) (children : t.children id = [child]) (named : t.Named child name)
      (asked : Yields (Compile.emit (Emit.typeOf? cfg name)) w (some type) w') :
      Finds cfg t w id tag ⟨some .get, some type⟩ w'
  | typeOf {child : NodeId} {name : String} {type : TypeId} (word : tag = Keyword.typeOf)
      (children : t.children id = [child]) (named : t.Named child name)
      (known : cfg.catalog.types.lookup name = some type) :
      Finds cfg t w id tag
        ⟨some (.typeOf type), some (cfg.catalog.types.builtin TypeTable.typeTypeName)⟩ w
  | set {first second : NodeId} {name : String} {type : Option TypeId} {w' : Workspace}
      (word : tag = Keyword.set) (children : t.children id = [first, second])
      (named : t.Named first name)
      (asked : Yields (Compile.emit (Emit.typeOf? cfg name)) w type w') :
      Finds cfg t w id tag
        ⟨some .set, some ((type <|> w.nodeType? second).getD TypeTable.object)⟩ w'
  | loop {first second : NodeId} (word : tag = Keyword.loop)
      (children : t.children id = [first, second]) :
      Finds cfg t w id tag ⟨some .loop, w.nodeType? second⟩ w
  | event {first second : NodeId} (word : tag = Keyword.event)
      (children : t.children id = [first, second]) :
      Finds cfg t w id tag ⟨some .event, w.nodeType? second⟩ w
  | call (declare : tag ≠ Keyword.declare) (inlineAsm : tag ≠ Keyword.inlineAsm)
      (conditional : ¬ (tag = Keyword.conditional ∧ 1 < (t.children id).length))
      (one : ∀ child, t.children id = [child] → tag ≠ Keyword.get ∧ tag ≠ Keyword.typeOf)
      (two : ∀ first second, t.children id = [first, second] →
        tag ≠ Keyword.set ∧ tag ≠ Keyword.loop ∧ tag ≠ Keyword.event) :
      Finds cfg t w id tag (callFinding cfg w tag (t.children id)) w

theorem taggedFinding_finds {id : NodeId} {tag : String} {found : Finding}
    (h : Yields (taggedFinding cfg t tag (t.children id)) w found w') :
    Finds cfg t w id tag found w' := by
  simp only [taggedFinding, Yields.bind_iff, Yields.get_iff] at h
  obtain ⟨_, _, ⟨rfl, rfl⟩, h⟩ := h
  -- These three go by the tag; the others also need one or two children, or they are calls.
  by_cases hdeclare : tag = Keyword.declare
  · simp only [if_pos hdeclare, Yields.bind_iff, Yields.pure_iff] at h
    obtain ⟨name, _, hname', rfl, rfl⟩ := h
    obtain ⟨hname, rfl⟩ := Compile.nameAt_named hname'
    exact .declare hdeclare hname
  by_cases hasm : tag = Keyword.inlineAsm
  · simp only [if_neg hdeclare, if_pos hasm, Yields.pure_iff] at h
    obtain ⟨rfl, rfl⟩ := h
    exact .inlineAsm hasm
  by_cases hconditional : tag = Keyword.conditional ∧ 1 < (t.children id).length
  · simp only [if_neg hdeclare, if_neg hasm, if_pos hconditional, Yields.pure_iff] at h
    obtain ⟨rfl, rfl⟩ := h
    exact .conditional hconditional.1 hconditional.2
  simp only [if_neg hdeclare, if_neg hasm, if_neg hconditional] at h
  split at h
  next child hchildren =>
    split at h
    next hget =>
      simp only [Yields.bind_iff] at h
      obtain ⟨name, _, hname', type, w₁, htype, h⟩ := h
      obtain ⟨hname, rfl⟩ := Compile.nameAt_named hname'
      cases type with
      | none => simp at h
      | some type =>
        obtain ⟨rfl, rfl⟩ := Yields.pure_iff.mp h
        exact .get hget hchildren hname htype
    next hget =>
      split at h
      next htypeOf =>
        simp only [Yields.bind_iff] at h
        obtain ⟨name, _, hname', h⟩ := h
        obtain ⟨hname, rfl⟩ := Compile.nameAt_named hname'
        split at h
        next type htype =>
          obtain ⟨rfl, rfl⟩ := Yields.pure_iff.mp h
          exact .typeOf htypeOf hchildren hname htype
        next => simp at h
      next htypeOf =>
        obtain ⟨rfl, rfl⟩ := Yields.pure_iff.mp h
        exact .call hdeclare hasm hconditional (fun _ _ => ⟨hget, htypeOf⟩) (by simp [hchildren])
  next first second hchildren =>
    split at h
    next hset =>
      simp only [Yields.bind_iff] at h
      obtain ⟨name, _, hname', type, w₁, htype, h⟩ := h
      obtain ⟨hname, rfl⟩ := Compile.nameAt_named hname'
      obtain ⟨rfl, rfl⟩ := Yields.pure_iff.mp h
      exact .set hset hchildren hname htype
    next hset =>
      split at h
      next hloop =>
        obtain ⟨rfl, rfl⟩ := Yields.pure_iff.mp h
        exact .loop hloop hchildren
      next hloop =>
        split at h
        next hevent =>
          obtain ⟨rfl, rfl⟩ := Yields.pure_iff.mp h
          exact .event hevent hchildren
        next hevent =>
          obtain ⟨rfl, rfl⟩ := Yields.pure_iff.mp h
          exact .call hdeclare hasm hconditional (by simp [hchildren])
            fun _ _ _ => ⟨hset, hloop, hevent⟩
  next hone htwo =>
    obtain ⟨rfl, rfl⟩ := Yields.pure_iff.mp h
    exact .call hdeclare hasm hconditional (fun child hchild => absurd hchild (hone child))
      fun first second hpair => absurd hpair (htwo first second)

/-- The meaning of a tagged list is backed; to find it, at most a predefined slot is made. -/
theorem taggedFinding_spec {id : NodeId} {tag : String} {found : Finding}
    (h : Yields (taggedFinding cfg t tag (t.children id)) w found w')
    (htag : t.tag id = .string tag) (hleaf : (t.node id).isLeaf = false) :
    ∃ heap, Keeps w.assembly.heap heap ∧
      w' = { w with assembly := { w.assembly with heap := heap } } ∧
      ∀ construct, found.construct = some construct → Meaning cfg t heap id construct := by
  -- Most findings promise nothing of variables, and no slot is made for them.
  have hplain : ∀ {plain : Construct} {type : Option TypeId},
      Meaning cfg t w.assembly.heap id plain → ∃ heap, Keeps w.assembly.heap heap ∧
        w = { w with assembly := { w.assembly with heap := heap } } ∧
        ∀ construct, (⟨some plain, type⟩ : Finding).construct = some construct →
          Meaning cfg t heap id construct :=
    fun hmeaning => ⟨_, .refl _, rfl, fun _ hconstruct => Option.some.inj hconstruct ▸ hmeaning⟩
  cases taggedFinding_finds h with
  | declare | conditional | typeOf | loop => exact hplain trivial
  | inlineAsm word => exact hplain ⟨by rw [htag, word], hleaf⟩
  | event word children => exact hplain ⟨by rw [htag, word], by rw [children]; rfl⟩
  | call => exact ⟨_, .refl _, rfl, fun _ hconstruct => callFinding_meaning hconstruct⟩
  | get word children named asked =>
    -- A variable that is read has been found.
    obtain ⟨heap, hkeeps, rfl, -, hsome⟩ := typeOf?_keeps asked
    refine ⟨heap, hkeeps, rfl, fun construct hconstruct => ?_⟩
    obtain rfl := Option.some.inj hconstruct
    intro child name hchild hname
    rw [children] at hchild
    obtain rfl := Option.some.inj hchild
    obtain rfl := Option.some.inj (named.1.symm.trans hname)
    exact hsome (Option.some_ne_none _)
  | @set _ _ _ type _ word children named asked =>
    -- A variable that is assigned has been found, or is not predefined.
    obtain ⟨heap, hkeeps, rfl, hnone, hsome⟩ := typeOf?_keeps asked
    refine ⟨heap, hkeeps, rfl, fun construct hconstruct => ?_⟩
    obtain rfl := Option.some.inj hconstruct
    intro child name hchild hname
    rw [children] at hchild
    obtain rfl := Option.some.inj hchild
    obtain rfl := Option.some.inj (named.1.symm.trans hname)
    cases type with
    | none => exact Or.inr (hnone rfl)
    | some type => exact Or.inl (hsome (Option.some_ne_none _))

/-- How the meaning of a node is found: by its tag, unless it is a leaf. -/
theorem classify_cases {id : NodeId} {found : Finding} (h : Yields (classify cfg t id) w found w') :
    ((t.node id).isLeaf = true ∧
        found = ⟨some .literal, some (cfg.catalog.types.typeOf (t.tag id))⟩ ∧ w = w') ∨
      (t.node id).isLeaf = false ∧
        (t.tag id = .null ∧ Yields (sequenceFinding cfg t (t.children id)) w found w' ∨
          (∃ tag, t.tag id = .string tag ∧
            Yields (taggedFinding cfg t tag (t.children id)) w found w') ∨
          t.tag id ≠ .null ∧ (∀ tag, t.tag id ≠ .string tag) ∧ found = {} ∧ w = w') := by
  simp only [classify] at h
  split at h
  next hleaf =>
    obtain ⟨rfl, rfl⟩ := Yields.pure_iff.mp h
    exact Or.inl ⟨hleaf, rfl, rfl⟩
  next hleaf =>
    refine Or.inr ⟨Bool.eq_false_of_not_eq_true hleaf, ?_⟩
    split at h
    next htag => exact Or.inl ⟨htag, h⟩
    next tag htag => exact Or.inr (Or.inl ⟨tag, htag, h⟩)
    next hnull hstring =>
      obtain ⟨rfl, rfl⟩ := Yields.pure_iff.mp h
      exact Or.inr (Or.inr ⟨hnull, hstring, rfl, rfl⟩)

theorem classify_prepared {id : NodeId} {found : Finding}
    (h : Yields (classify cfg t id) w found w') (hw : Prepared cfg t w) :
    Prepared cfg t w' ∧ ∀ construct, found.construct = some construct →
      Meaning cfg t w'.assembly.heap id construct := by
  rcases classify_cases h with ⟨-, rfl, rfl⟩ | ⟨hleaf, ⟨-, hsequence⟩ | ⟨tag, htag, htagged⟩ |
    ⟨-, -, rfl, rfl⟩⟩
  · exact ⟨hw, fun construct hconstruct => Option.some.inj hconstruct ▸ trivial⟩
  · obtain ⟨rfl, hitem⟩ := sequenceFinding_cases hsequence
    refine ⟨?_, fun construct hconstruct => Option.some.inj hconstruct ▸ hleaf⟩
    rcases hitem with ⟨rfl, -⟩ | ⟨only, bare, -, hbare, rfl⟩
    · exact hw
    · exact hw.record fun construct hconstruct => bareCall?_meaning hbare hconstruct
  · obtain ⟨heap, hkeeps, rfl, hmeaning⟩ := taggedFinding_spec htagged htag hleaf
    exact ⟨hw.onHeap hkeeps, hmeaning⟩
  · exact ⟨hw, fun construct hconstruct => by cases hconstruct⟩

theorem classifyAll_prepared {ids : List NodeId} (h : Yields (classifyAll cfg t ids) w () w')
    (hw : Prepared cfg t w) : Prepared cfg t w' := by
  induction ids generalizing w with
  | nil =>
    obtain ⟨-, rfl⟩ := Yields.pure_iff.mp h
    exact hw
  | cons id ids ih =>
    simp only [classifyAll, Yields.bind_iff, Yields.modify_iff, Compilation.at_iff] at h
    obtain ⟨found, w₁, hclassify, _, _, rfl, hrest⟩ := h
    obtain ⟨hw₁, hfound⟩ := classify_prepared hclassify hw
    exact ih hrest (hw₁.record hfound)

end Resolution

theorem Program.resolved_eq_ok_iff {cfg : Setting} {t : Tree} {w : Workspace} :
    Program.resolved cfg t = .ok w ↔ Yields (Resolution.resolve cfg t) (.forTree t) () w := by
  unfold Program.resolved
  cases hrun : (Resolution.resolve cfg t).run (.forTree t) with
  | ok _ w' =>
    have hyields : Yields (Resolution.resolve cfg t) (.forTree t) () w' := hrun
    exact ⟨fun h => Except.ok.inj h ▸ hyields, fun h => (hyields.unique h).2 ▸ rfl⟩
  | error e w' => exact ⟨fun h => (by cases h), fun h => (by cases hrun.symm.trans h)⟩

theorem Program.resolved_eq_error_iff {cfg : Setting} {t : Tree} {e : CompileError} :
    Program.resolved cfg t = .error e ↔
      ∃ w, Resolution.resolve cfg t (.forTree t) = .error e w := by
  unfold Program.resolved
  cases hrun : (Resolution.resolve cfg t).run (.forTree t) with
  | ok _ w' => exact ⟨fun h => (by cases h), fun ⟨_, h⟩ => (by cases hrun.symm.trans h)⟩
  | error e' w' =>
    refine ⟨fun h => ⟨w', Except.error.inj h ▸ hrun⟩, fun ⟨w, h⟩ => ?_⟩
    cases hrun.symm.trans h
    rfl

/-- The two passes of a resolution that succeeds. -/
theorem Program.resolved_stages {cfg : Setting} {t : Tree} {w : Workspace}
    (h : Program.resolved cfg t = .ok w) : ∃ order declared,
      Yields (Resolution.declareLevels cfg t t.size [Tree.root]) (.forTree t) order declared ∧
      Yields (Resolution.classifyAll cfg t order.reverse) declared () w :=
  Yields.bind_iff.mp (Program.resolved_eq_ok_iff.mp h)

/-- After resolution nothing has been generated, and every meaning found is backed. -/
theorem Program.resolved_prepared {cfg : Setting} {t : Tree} {w : Workspace}
    (h : Program.resolved cfg t = .ok w) : Resolution.Prepared cfg t w := by
  obtain ⟨order, declared, hlevels, hclassify⟩ := Program.resolved_stages h
  obtain ⟨-, hvisits⟩ := Resolution.declareLevels_visits hlevels
  exact Resolution.classifyAll_prepared hclassify
    (hvisits.prepared (Resolution.prepared_forTree cfg t))

end SexprAsm
