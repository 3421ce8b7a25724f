import SexprAsm.Proofs.Assembly.Kinds
import SexprAsm.Proofs.Program
import SexprAsm.Proofs.Resolution.Pointers
import SexprAsm.Proofs.Resolution.Rule

/-!
# When resolution succeeds

Whether resolution succeeds does not depend on the order of its visits (`Resolvable`): every visited
node makes sense by itself (`Sensible`), the declarations of one name agree on its type, and a
variable that is read is declared somewhere or predefined. Nor do the kinds of slots that it leaves
(`Resolution.Settled`): a variable has the type of its declarations, and a predefined name that is
asked for has its own.

Only the slots for return addresses depend on the order, because they get names that are free by
then. So all this is about trees in which nothing is named like them (`Resolution.Plain`).
-/

namespace SexprAsm

open Resolution

/-! ## What a node is about

A node can make a variable, if it is a declaration (`Makes`), and it can ask for one, if it is a
read or an assignment (`Asks`). All that resolution asks of a tree is said in these terms
(`Resolvable`), and so are the kinds of the slots that it leaves (`Settled`). Neither mentions an
order. -/

/-- The name begins like that of the slot for the return address of an event. -/
def Tree.PointerLike (t : Tree) (name : String) : Prop :=
  ∃ block label, t.eventLabel? block = some label ∧
    (Workspace.pointerLead label).toList <+: name.toList

/-- The node that names the variable that a read or an assignment asks for. -/
def Tree.asked? (t : Tree) (id : NodeId) : Option NodeId :=
  match t.children id with
  | [child] => if t.tag id = .string Keyword.get then some child else none
  | [first, _] => if t.tag id = .string Keyword.set then some first else none
  | _ => none

/-- The node asks for the variable of this name. -/
def Tree.Asks (t : Tree) (id : NodeId) (name : String) : Prop :=
  ∃ child, t.asked? id = some child ∧ t.Named child name

theorem Tree.Asks.unique {t : Tree} {id : NodeId} {name name' : String} (h : t.Asks id name)
    (h' : t.Asks id name') : name' = name := by
  obtain ⟨child, hchild, hname⟩ := h
  obtain ⟨child', hchild', hname'⟩ := h'
  obtain rfl := Option.some.inj (hchild.symm.trans hchild')
  exact hname.unique hname'

theorem Tree.not_asks_of_none {t : Tree} {id : NodeId} (h : t.asked? id = none) (name : String) :
    ¬ t.Asks id name := by
  rintro ⟨child, hchild, -⟩
  rw [h] at hchild
  cases hchild

theorem Heap.slotType?_eq_kind? (heap : Heap) (name : String) :
    heap.slotType? name = (heap.kind? name).map Prod.fst := by
  rw [Heap.slotType?, Heap.kind?, Option.map_map]
  rfl

namespace Resolution

/-- Nothing in the tree, and no predefined name, is named like the slot for a return address. -/
structure Plain (c : Catalog) (t : Tree) : Prop where
  texts : ∀ id name, (t.tag id).text? = some name → ¬ t.PointerLike name
  predefined : ∀ name, c.predefined.contains name = true → ¬ t.PointerLike name

/-- The node is a declaration that makes sense, and gives the variable its type. -/
def Makes (cfg : Setting) (t : Tree) (id : NodeId) (name : String) (type : TypeId) : Prop :=
  t.Declares id name ∧ ∃ given attributes₀ attributes value,
    modifiers cfg t ((t.children id).drop 1).dropLast (none, {}) = .ok (given, attributes₀) ∧
    lastValue t id name attributes₀ = .ok (attributes, value) ∧
    Heap.fits cfg.catalog.types (Heap.settle cfg.catalog name given attributes value) = true ∧
    (Heap.settle cfg.catalog name given attributes value).type = type

/-- What resolution asks of a node by itself. -/
structure Sensible (cfg : Setting) (t : Tree) (id : NodeId) : Prop where
  declares : t.tag id = .string Keyword.declare → (t.node id).isLeaf = false →
    ∃ name type, Makes cfg t id name type
  labels : t.isEvent id = true → ∃ label, t.eventLabel? id = some label ∧ label.isEmpty = false
  asks : ∀ child, t.asked? id = some child → ∃ name, t.Named child name
  types : ∀ child, t.tag id = .string Keyword.typeOf → t.children id = [child] →
    ∃ name type, t.Named child name ∧ cfg.catalog.types.lookup name = some type

/-- What resolution asks of a tree. -/
structure Resolvable (cfg : Setting) (t : Tree) : Prop where
  sensible : ∀ id, t.Visited id → Sensible cfg t id
  agree : ∀ id id' name type type', t.Visited id → t.Visited id' → Makes cfg t id name type →
    Makes cfg t id' name type' → type' = type
  reads : ∀ id name, t.Visited id → t.tag id = .string Keyword.get → t.Asks id name →
    (∃ d type, t.Visited d ∧ Makes cfg t d name type) ∨
      cfg.catalog.predefined.contains name = true

/-- The kinds of slots after resolution. -/
structure Settled (cfg : Setting) (t : Tree) (heap : Heap) : Prop where
  declared : ∀ id name type, t.Visited id → Makes cfg t id name type →
    heap.kind? name = some (type, false)
  asked : ∀ id name, t.Visited id → t.Asks id name →
    (∀ d type, t.Visited d → ¬ Makes cfg t d name type) →
    heap.kind? name = (cfg.catalog.predefined.get? name).map (·, false)
  others : ∀ name, ¬ t.PointerLike name → (∀ id, t.Visited id → ¬ t.Asks id name) →
    (∀ d type, t.Visited d → ¬ Makes cfg t d name type) → heap.kind? name = none
  plain : ∀ name kind, heap.kind? name = some kind → kind.2 = false

variable {cfg : Setting} {t : Tree} {w w' : Workspace} {id : NodeId} {name name' : String}
  {type type' : TypeId} {visited : List NodeId}

theorem Makes.unique (h : Makes cfg t id name type) (h' : Makes cfg t id name' type') :
    name' = name ∧ type' = type := by
  obtain ⟨hdeclares, given, attributes₀, attributes, value, hmodifiers, hvalue, -, rfl⟩ := h
  obtain ⟨hdeclares', given', attributes₀', attributes', value', hmodifiers', hvalue', -, rfl⟩ := h'
  obtain rfl := hdeclares.unique hdeclares'
  obtain ⟨rfl, rfl⟩ := Prod.mk.inj (Except.ok.inj (hmodifiers.symm.trans hmodifiers'))
  obtain ⟨rfl, rfl⟩ := Prod.mk.inj (Except.ok.inj (hvalue.symm.trans hvalue'))
  exact ⟨rfl, rfl⟩

/-! ## Declarations

What a declaration does when it succeeds, and that it does succeed if its modifiers and its
default value make sense (`Makes.yields`). The slot for a return address can always be made:
there are more tries than names in the heap and among the predefined ones
(`defineReturnPointer_yields`). -/

/-- What a declaration that succeeds does to the kinds of slots. -/
theorem declareVariable_makes (htag : t.tag id = .string Keyword.declare)
    (hleaf : (t.node id).isLeaf = false) (h : Yields (declareVariable cfg t id) w () w') :
    ∃ name type heap, Makes cfg t id name type ∧
      w' = { w with assembly := { w.assembly with heap := heap } } ∧
      (∀ kind, w.assembly.heap.kind? name = some kind → kind.1 = type) ∧
      ∀ other, heap.kind? other =
        if other = name then some (type, false) else w.assembly.heap.kind? other := by
  obtain ⟨name, given, attributes₀, attributes, value, hname, hmodifiers, hvalue, hemit⟩ :=
    declareVariable_iff.mp h
  obtain ⟨heap, hdefine, rfl⟩ := Compile.define_iff.mp hemit
  have hconstant :
      (Heap.settle cfg.catalog name given attributes value).attributes.constant = false :=
    Heap.settle_constant _ _ _ _ (lastValue_constant hvalue (modifiers_constant hmodifiers rfl))
  have hkinds := Heap.kind?_define hdefine
  rw [hconstant] at hkinds
  refine ⟨name, _, heap, ⟨⟨htag, hleaf, hname⟩, given, attributes₀, attributes, value, hmodifiers,
    hvalue, Heap.fits_of_define hdefine, rfl⟩, rfl, fun kind hkind => ?_, hkinds⟩
  -- A slot that was there keeps its type.
  obtain ⟨v, hv, htype, -⟩ := Heap.kind?_eq_some.mp hkind
  obtain ⟨v', hv', htype'⟩ := Heap.define_keepsTypes hdefine name v hv
  have hkind' := hkinds name
  rw [if_pos rfl, Heap.kind?, hv'] at hkind'
  exact htype.symm.trans (htype'.symm.trans (Prod.mk.inj (Option.some.inj hkind')).1)

theorem Makes.yields (h : Makes cfg t id name type)
    (hkind : ∀ kind, w.assembly.heap.kind? name = some kind → kind = (type, false)) :
    ∃ w', Yields (declareVariable cfg t id) w () w' := by
  obtain ⟨⟨-, -, hname⟩, given, attributes₀, attributes, value, hmodifiers, hvalue, hfits, rfl⟩ := h
  obtain ⟨heap, hdefine⟩ := Heap.define_of_kind hname.2 hfits hkind
  exact ⟨_, declareVariable_iff.mpr ⟨name, given, attributes₀, attributes, value, hname, hmodifiers,
    hvalue, Compile.define_iff.mpr ⟨heap, hdefine, rfl⟩⟩⟩

end Resolution

namespace Build

open Workspace

variable {cfg : Setting} {label : String}

theorem isEmpty_of_pointerLead {name : String} (h : (pointerLead label).toList <+: name.toList) :
    name.isEmpty = false := by
  by_contra hempty
  rw [Bool.not_eq_false, String.isEmpty_iff] at hempty
  rw [hempty, String.toList_empty, List.prefix_nil, pointerLead, String.toList_append,
    String.toList_append] at h
  simp at h

/-- The slot for a return address can always be made, if no predefined name is in the way. -/
theorem defineReturnPointer_yields
    (hnames : ∀ name, (pointerLead label).toList <+: name.toList →
      cfg.catalog.predefined.get? name = none) (w : Workspace) :
    ∃ pointer heap, Yields (defineReturnPointer cfg label) w pointer
        { w with assembly := { w.assembly with heap := heap } } ∧
      (pointerLead label).toList <+: pointer.toList ∧ w.assembly.heap.kind? pointer = none ∧
      ∀ other, heap.kind? other =
        if other = pointer then some (cfg.catalog.types.builtin TypeTable.uint32Name, false)
        else w.assembly.heap.kind? other := by
  -- There are more names to try than slots, and all of them begin like a return pointer.
  let names (n : Nat) : String :=
    if n = 0 then pointerLead label else Heap.numbered (pointerLead label) (n - 1)
  have hlead : ∀ n, (pointerLead label).toList <+: (names n).toList := by
    intro n
    dsimp only [names]
    split
    · exact List.prefix_refl _
    · rw [Heap.toList_numbered]
      exact List.prefix_append _ _
  obtain ⟨⟨pointer, serial⟩, hfirst⟩ := firstFree_yields cfg names
    (fun n => hnames _ (hlead n)) (w.assembly.heap.slots.size + cfg.catalog.predefined.size) 0 w
  have htries : Yields (nameTries cfg) w
      (w.assembly.heap.slots.size + cfg.catalog.predefined.size) w := by
    simp [nameTries]
  obtain ⟨a, j, -, hsame, hpointer, hnew, hpinned⟩ := firstFree_spec
    (Heap.numberedAfter_injective _) (Yields.bind_iff.mpr ⟨_, w, htries, hfirst⟩)
  obtain rfl : w.assembly = a := congrArg Workspace.assembly hsame
  replace hlead : (pointerLead label).toList <+: pointer.toList := hpointer ▸ hlead j
  have hfresh := Heap.kind?_eq_none.mpr hnew
  have hsettle : Heap.settle cfg.catalog pointer
      (some (cfg.catalog.types.builtin TypeTable.uint32Name)) {} (some (.uint32 returnAddress)) =
      cfg.catalog.pointerSlot := by
    simp [Heap.settle, hpinned, Catalog.pointerSlot]
  obtain ⟨heap, hdefine⟩ := Heap.define_of_fresh
    (some (cfg.catalog.types.builtin TypeTable.uint32Name)) {} (some (.uint32 returnAddress))
    (isEmpty_of_pointerLead hlead) (by
      rw [hsettle, Heap.fits, Catalog.pointerSlot, Option.all_some]
      exact Bool.or_eq_true _ _ |>.mpr (Or.inr (TypeTable.isAssignable_refl _ _))) hfresh
  have hkinds := Heap.kind?_define hdefine
  rw [hsettle] at hkinds
  refine ⟨pointer, heap, ?_, hlead, hfresh, hkinds⟩
  simp only [defineReturnPointer, Yields.bind_iff, Yields.pure_iff]
  exact ⟨_, w, htries, (pointer, serial), w, hfirst, (), _,
    Compile.build_iff.mp (Compile.define_iff.mpr ⟨heap, hdefine, rfl⟩), rfl, rfl⟩

/-- One more block can always be declared. -/
theorem declareEntryPoint_yields
    (hnames : ∀ name, (pointerLead label).toList <+: name.toList →
      cfg.catalog.predefined.get? name = none) (w : Workspace) :
    ∃ entry heap, Yields (declareEntryPoint cfg label) w entry { w with
        assembly := { w.assembly with heap := heap }
        entryPoints := w.entryPoints.put label entry } ∧
      (∀ other kind, w.assembly.heap.kind? other = some kind → heap.kind? other = some kind) ∧
      ∀ other kind, heap.kind? other = some kind → w.assembly.heap.kind? other = some kind ∨
        kind.2 = false ∧ (pointerLead label).toList <+: other.toList := by
  simp only [declareEntryPoint, Yields.bind_iff, Yields.get_iff]
  cases hentry : w.entryPoints.get? label with
  | some entry =>
    refine ⟨{ entry with blocks := entry.blocks + 1 }, w.assembly.heap, ⟨w, w, ⟨rfl, rfl⟩, ?_⟩,
      fun _ _ h => h, fun _ _ h => Or.inl h⟩
    rw [hentry]
    simp only [Yields.bind_iff, Yields.pure_iff, Yields.modify_iff]
    exact ⟨entry, w, ⟨rfl, rfl⟩, (), _, rfl, rfl, rfl⟩
  | none =>
    obtain ⟨pointer, heap, hpointer, hlead, hfresh, hkinds⟩ := defineReturnPointer_yields hnames w
    refine ⟨{ returnPointer := pointer, blocks := 1 }, heap, ⟨w, w, ⟨rfl, rfl⟩, ?_⟩,
      fun other kind hkind => ?_, fun other kind hkind => ?_⟩
    · rw [hentry]
      simp only [Yields.bind_iff, Yields.pure_iff, Yields.modify_iff]
      exact ⟨pointer, _, hpointer, _, _, ⟨rfl, rfl⟩, (), _, rfl, rfl, rfl⟩
    · rw [hkinds, if_neg, hkind]
      rintro rfl
      rw [hfresh] at hkind
      cases hkind
    · rw [hkinds] at hkind
      split at hkind
      next heq =>
        obtain rfl := Option.some.inj hkind
        exact Or.inr ⟨rfl, heq ▸ hlead⟩
      next => exact Or.inl hkind

end Build

namespace Resolution

variable {cfg : Setting} {t : Tree} {w w' : Workspace} {id : NodeId} {visited : List NodeId}

/-! ## The first pass

`Ledger` is what the first pass keeps: the variables that have been declared so far have the
types of their declarations. A visit keeps it whatever the node is, by one lemma for declarations
and one for all other nodes. -/

theorem Plain.free (h : Plain cfg.catalog t) {block : NodeId} {label : String}
    (hlabel : t.eventLabel? block = some label) (name : String)
    (hlead : (Workspace.pointerLead label).toList <+: name.toList) :
    cfg.catalog.predefined.get? name = none := by
  cases hpinned : cfg.catalog.predefined.get? name with
  | none => rfl
  | some type =>
    exact absurd ⟨block, label, hlabel, hlead⟩
      (h.predefined name (OrderedMap.contains_iff.mpr ⟨type, hpinned⟩))

/-- After some visits, every variable that has been declared has the type of its declarations, and
the other slots are for return addresses. -/
structure Ledger (cfg : Setting) (t : Tree) (visited : List NodeId) (heap : Heap) : Prop where
  made : ∀ id ∈ visited, t.tag id = .string Keyword.declare → (t.node id).isLeaf = false →
    ∃ name type, Makes cfg t id name type
  declared : ∀ id ∈ visited, ∀ name type, Makes cfg t id name type →
    heap.kind? name = some (type, false)
  backed : ∀ name kind, heap.kind? name = some kind → kind.2 = false ∧
    ((∃ id ∈ visited, Makes cfg t id name kind.1) ∨ t.PointerLike name)

/-- A visit that declares no variable, and at most makes the slot for a return address. -/
theorem Ledger.pass {heap heap' : Heap} (h : Ledger cfg t visited heap)
    (hno : t.tag id = .string Keyword.declare → (t.node id).isLeaf = true)
    (hkeeps : ∀ name kind, heap.kind? name = some kind → heap'.kind? name = some kind)
    (hnew : ∀ name kind, heap'.kind? name = some kind → heap.kind? name = some kind ∨
      kind.2 = false ∧ t.PointerLike name) :
    Ledger cfg t (visited ++ [id]) heap' := by
  have hmakes : ∀ name type, ¬ Makes cfg t id name type := by
    rintro name type ⟨⟨htag, hleaf, -⟩, -⟩
    rw [hno htag] at hleaf
    cases hleaf
  refine ⟨fun other hother htag hleaf => ?_, fun other hother name type hmade => ?_,
    fun name kind hkind => ?_⟩
  · rcases List.mem_append.mp hother with hother | hother
    · exact h.made other hother htag hleaf
    · obtain rfl := List.mem_singleton.mp hother
      rw [hno htag] at hleaf
      cases hleaf
  · rcases List.mem_append.mp hother with hother | hother
    · exact hkeeps _ _ (h.declared other hother name type hmade)
    · obtain rfl := List.mem_singleton.mp hother
      exact absurd hmade (hmakes name type)
  · rcases hnew name kind hkind with hkind | ⟨hvariable, hpointer⟩
    · obtain ⟨hvariable, hbacked⟩ := h.backed name kind hkind
      refine ⟨hvariable, hbacked.imp_left ?_⟩
      rintro ⟨other, hother, hmade⟩
      exact ⟨other, List.mem_append_left _ hother, hmade⟩
    · exact ⟨hvariable, Or.inr hpointer⟩

theorem Ledger.declareVariable (h : Ledger cfg t visited w.assembly.heap)
    (htag : t.tag id = .string Keyword.declare) (hleaf : (t.node id).isLeaf = false)
    (hyields : Yields (declareVariable cfg t id) w () w') :
    Ledger cfg t (visited ++ [id]) w'.assembly.heap := by
  obtain ⟨name, type, heap, hmakes, rfl, hsame, hkinds⟩ := declareVariable_makes htag hleaf hyields
  refine ⟨fun other hother htag' hleaf' => ?_, fun other hother name' type' hmade => ?_,
    fun other kind hkind => ?_⟩
  · rcases List.mem_append.mp hother with hother | hother
    · exact h.made other hother htag' hleaf'
    · exact ⟨name, type, List.mem_singleton.mp hother ▸ hmakes⟩
  · rw [hkinds]
    rcases List.mem_append.mp hother with hother | hother
    · have hkind := h.declared other hother name' type' hmade
      split
      next heq => rw [← hsame _ (heq ▸ hkind)]
      next => exact hkind
    · obtain rfl := List.mem_singleton.mp hother
      obtain ⟨rfl, rfl⟩ := hmakes.unique hmade
      rw [if_pos rfl]
  · rw [hkinds] at hkind
    split at hkind
    next heq =>
      obtain rfl := Option.some.inj hkind
      exact ⟨rfl, Or.inl ⟨id, by simp, heq ▸ hmakes⟩⟩
    next =>
      obtain ⟨hvariable, hbacked⟩ := h.backed other kind hkind
      refine ⟨hvariable, hbacked.imp_left ?_⟩
      rintro ⟨node, hnode, hmade⟩
      exact ⟨node, List.mem_append_left _ hnode, hmade⟩

/-- Every visit keeps the ledger. -/
theorem Ledger.declareNode {visit : Bool} (h : Ledger cfg t visited w.assembly.heap)
    (hplain : Plain cfg.catalog t) (hyields : Yields (declareNode cfg t id) w visit w') :
    Ledger cfg t (visited ++ [id]) w'.assembly.heap := by
  rcases (declareNode_cases hyields).2 with ⟨htag, hleaf, hvariable⟩ |
    ⟨hevent, first, label, entry, hfirst, hlabel, hentry⟩ | ⟨hleaf, -, rfl⟩
  · exact h.declareVariable htag hleaf hvariable
  · have hlabel' := Tree.eventLabel?_eq_some hevent hfirst hlabel.1
    obtain ⟨entry', heap, hyields', hkeeps, hnew⟩ :=
      Build.declareEntryPoint_yields (hplain.free hlabel') w
    obtain ⟨rfl, rfl⟩ := hentry.unique hyields'
    exact h.pass (fun htag => absurd htag (Tree.not_declare_of_isEvent hevent)) hkeeps
      fun name kind hkind => (hnew name kind hkind).imp_right fun ⟨hvariable, hlead⟩ =>
        ⟨hvariable, id, label, hlabel', hlead⟩
  · exact h.pass hleaf (fun _ _ hkind => hkind) fun _ _ hkind => Or.inl hkind

theorem Visits.ledger {ids : List NodeId} (h : Visits cfg t ids w w') (hplain : Plain cfg.catalog t)
    (hledger : Ledger cfg t visited w.assembly.heap) :
    Ledger cfg t (visited ++ ids) w'.assembly.heap :=
  h.keeps (P := fun visited w => Ledger cfg t visited w.assembly.heap)
    (fun hledger hnode => hledger.declareNode hplain hnode) hledger

/-! ### The first pass succeeds

The converse of the ledger: where the tree is resolvable, no visit can fail, because a failing
visit would contradict a declaration that the ledger has kept. First for one visit, then along a
level, then over all levels. -/

/-- A visit succeeds, if the node makes sense and does not contradict the declarations before. -/
theorem Ledger.exists_declareNode (h : Ledger cfg t visited w.assembly.heap)
    (hplain : Plain cfg.catalog t) (hsensible : Sensible cfg t id)
    (hagree : ∀ other ∈ visited, ∀ name type type', Makes cfg t other name type →
      Makes cfg t id name type' → type' = type) :
    ∃ visit w', Yields (Resolution.declareNode cfg t id) w visit w' := by
  unfold Resolution.declareNode
  dsimp only
  cases htext : (t.node id).tag.text? with
  | none => exact ⟨true, w, rfl⟩
  | some tag =>
    have htag : t.tag id = .string tag := Value.eq_string_of_text? htext
    dsimp only
    split
    next hdeclare =>
      obtain ⟨name, type, hmakes⟩ :=
        hsensible.declares (by rw [htag, hdeclare.1]) (by simpa using hdeclare.2)
      -- A slot that is there was made by a visit before, so its type is the same.
      obtain ⟨w₁, hyields⟩ := hmakes.yields (w := w) fun kind hkind => by
        obtain ⟨hvariable, ⟨other, hother, hmade⟩ | hpointer⟩ := h.backed name kind hkind
        · rw [hagree other hother name kind.1 type hmade hmakes, ← hvariable]
        · exact absurd hpointer (hplain.texts _ name hmakes.1.2.2.1)
      exact ⟨false, w₁, Yields.bind_iff.mpr ⟨(), w₁, hyields, rfl⟩⟩
    split
    · exact ⟨false, w, rfl⟩
    split
    next label body hchildren =>
      split
      next hevent =>
        have hisEvent : t.isEvent id = true :=
          Tree.isEvent_iff.mpr ⟨by rw [htag, hevent], by rw [Tree.children, hchildren]; rfl⟩
        obtain ⟨name, hname, hempty⟩ := hsensible.labels hisEvent
        have hnamed : t.Named label name := by
          rw [Tree.eventLabel?, if_pos hisEvent, Tree.children, hchildren] at hname
          exact ⟨hname, hempty⟩
        obtain ⟨entry, heap, hyields, -⟩ := Build.declareEntryPoint_yields (hplain.free hname) w
        exact ⟨true, _, Yields.bind_iff.mpr ⟨name, w, Compile.nameAt_iff.mpr ⟨hnamed, rfl⟩,
          Yields.bind_iff.mpr ⟨entry, _, Compile.build_iff.mpr hyields, rfl⟩⟩⟩
      next => exact ⟨true, w, rfl⟩
    next => exact ⟨true, w, rfl⟩

theorem Resolvable.exists_declareLevel (h : Resolvable cfg t) (hplain : Plain cfg.catalog t)
    {ids : List NodeId} (hvisited : ∀ id ∈ visited, t.Visited id) (hids : ∀ id ∈ ids, t.Visited id)
    (hledger : Ledger cfg t visited w.assembly.heap) :
    ∃ next w', Yields (declareLevel cfg t ids) w next w' := by
  induction ids generalizing w visited with
  | nil => exact ⟨[], w, rfl⟩
  | cons id ids ih =>
    have hid := hids id List.mem_cons_self
    obtain ⟨visit, w₁, hnode⟩ := hledger.exists_declareNode hplain (h.sensible id hid)
      fun other hother name type type' => h.agree other id name type type' (hvisited other hother) hid
    obtain ⟨next, w₂, hrest⟩ := ih (fun other hother => by
        rcases List.mem_append.mp hother with hother | hother
        · exact hvisited other hother
        · exact List.mem_singleton.mp hother ▸ hid)
      (fun other hother => hids other (List.mem_cons_of_mem _ hother))
      (hledger.declareNode hplain hnode)
    exact ⟨_, w₂, Yields.bind_iff.mpr ⟨visit, w₁, Compilation.at_iff.mpr hnode,
      Yields.bind_iff.mpr ⟨next, w₂, hrest, rfl⟩⟩⟩

theorem Resolvable.exists_declareLevels (h : Resolvable cfg t) (hplain : Plain cfg.catalog t)
    {depth : Nat} {ids : List NodeId} (hvisited : ∀ id ∈ visited, t.Visited id)
    (hids : ∀ id ∈ ids, t.Visited id) (hledger : Ledger cfg t visited w.assembly.heap) :
    ∃ order w', Yields (declareLevels cfg t depth ids) w order w' := by
  induction depth generalizing w visited ids with
  | zero => exact ⟨[], w, rfl⟩
  | succ depth ih =>
    cases ids with
    | nil => exact ⟨[], w, rfl⟩
    | cons id ids =>
      obtain ⟨next, w₁, hlevel⟩ := h.exists_declareLevel hplain hvisited hids hledger
      obtain ⟨hnext, hvisits⟩ := declareLevel_visits hlevel
      have hbelow : ∀ other ∈ next, t.Visited other := by
        intro other hother
        obtain ⟨p, hp, hother⟩ := List.mem_flatMap.mp (hnext ▸ hother)
        exact .child (hids p hp) hother
      obtain ⟨order, w₂, hrest⟩ := ih
        (fun other hother => (List.mem_append.mp hother).elim (hvisited other) (hids other)) hbelow
        (hvisits.ledger hplain hledger)
      exact ⟨_, w₂, Yields.bind_iff.mpr ⟨next, w₁, hlevel,
        Yields.bind_iff.mpr ⟨order, w₂, hrest, rfl⟩⟩⟩

/-! ## The second pass

The second pass makes a slot for a predefined name that a node asks for, and none else
(`Answers`). A node that makes sense gets a meaning, unless it reads a variable that has no slot.
There is one case for each keyword, as each has its own demands on its children. -/

theorem asked?_of_get {child : NodeId} (htag : t.tag id = .string Keyword.get)
    (hchildren : t.children id = [child]) : t.asked? id = some child := by
  rw [Tree.asked?, hchildren]
  exact if_pos htag

theorem asked?_of_set {first second : NodeId} (htag : t.tag id = .string Keyword.set)
    (hchildren : t.children id = [first, second]) : t.asked? id = some first := by
  rw [Tree.asked?, hchildren]
  exact if_pos htag

/-- Only a read of one child and an assignment of two ask for a variable. -/
theorem asked?_eq_none (hget : ∀ child, t.children id = [child] → t.tag id ≠ .string Keyword.get)
    (hset : ∀ first second, t.children id = [first, second] → t.tag id ≠ .string Keyword.set) :
    t.asked? id = none := by
  unfold Tree.asked?
  split
  next child hchildren => exact if_neg (hget child hchildren)
  next first second hchildren => exact if_neg (hset first second hchildren)
  next => rfl

/-- The kinds of slots are those that there were, but for a predefined name that a node asks for. -/
def Answers (cfg : Setting) (t : Tree) (id : NodeId) (heap heap' : Heap) : Prop :=
  ∀ name, (t.Asks id name → heap'.kind? name =
      (heap.kind? name <|> (cfg.catalog.predefined.get? name).map (·, false))) ∧
    (¬ t.Asks id name → heap'.kind? name = heap.kind? name)

theorem Answers.refl (h : t.asked? id = none) (heap : Heap) : Answers cfg t id heap heap :=
  fun name => ⟨fun hasks => absurd hasks (Tree.not_asks_of_none h name), fun _ => rfl⟩

/-- Asking for the type of the variable that a node names. -/
theorem exists_typeOf? (hsound : cfg.catalog.types.Sound) {child : NodeId} {name : String}
    (hasked : t.asked? id = some child) (hname : t.Named child name) (w : Workspace) :
    ∃ heap, Yields (Compile.emit (Emit.typeOf? cfg name)) w ((heap.kind? name).map Prod.fst)
        { w with assembly := { w.assembly with heap := heap } } ∧
      Answers cfg t id w.assembly.heap heap := by
  obtain ⟨heap, htype, -, -, hkinds⟩ := w.assembly.heap.typeOf?_plain hsound hname.2
  refine ⟨heap, Compile.emit_iff.mpr ⟨_, Emit.onHeap_iff.mpr ⟨heap, htype, rfl⟩, rfl⟩,
    fun other => ⟨fun hasks => ?_, fun hasks => ?_⟩⟩
  · obtain rfl := hasks.unique ⟨child, hasked, hname⟩
    rw [hkinds, if_pos rfl]
  · rw [hkinds, if_neg]
    rintro rfl
    exact hasks ⟨child, hasked, hname⟩

theorem exists_sequenceFinding (cfg : Setting) (t : Tree) (children : List NodeId) (w : Workspace) :
    ∃ found w', Yields (sequenceFinding cfg t children) w found w' ∧ w'.assembly = w.assembly := by
  have hrest : ∀ w₁ : Workspace, ∃ found, Yields (do
      let w ← get
      return ⟨some .sequence, children.getLast?.bind w.nodeType?⟩ : Compile Finding) w₁ found w₁ :=
    fun w₁ => ⟨_, rfl⟩
  unfold sequenceFinding
  split
  next only =>
    cases hbare : bareCall? cfg t w only with
    | some bare =>
      obtain ⟨found, hfound⟩ := hrest (w.record only bare)
      refine ⟨found, w.record only bare, Yields.bind_iff.mpr ⟨w, w, rfl, ?_⟩, rfl⟩
      rw [hbare]
      exact Yields.bind_iff.mpr ⟨⟨⟩, w.record only bare, rfl, hfound⟩
    | none =>
      obtain ⟨found, hfound⟩ := hrest w
      refine ⟨found, w, Yields.bind_iff.mpr ⟨w, w, rfl, ?_⟩, rfl⟩
      rw [hbare]
      exact hfound
  next =>
    obtain ⟨found, hfound⟩ := hrest w
    exact ⟨found, w, hfound, rfl⟩

/-- A node that makes sense is given a meaning, if it does not read a variable that is missing. -/
theorem Sensible.exists_taggedFinding (h : Sensible cfg t id) (hsound : cfg.catalog.types.Sound)
    {tag : String} (htag : t.tag id = .string tag) (hleaf : (t.node id).isLeaf = false)
    (hread : tag = Keyword.get → ∀ name, t.Asks id name →
      (w.assembly.heap.kind? name <|> (cfg.catalog.predefined.get? name).map (·, false)) ≠ none) :
    ∃ found w', Yields (taggedFinding cfg t tag (t.children id)) w found w' ∧
      Answers cfg t id w.assembly.heap w'.assembly.heap := by
  have hother {word : String} (hne : tag ≠ word) : t.tag id ≠ .string word := fun heq =>
    hne (Value.string.inj (htag.symm.trans heq))
  have hword (hget : tag ≠ Keyword.get) (hset : tag ≠ Keyword.set) : t.asked? id = none :=
    asked?_eq_none (fun _ _ => hother hget) fun _ _ _ => hother hset
  have hget : ∀ {next : Workspace → Compile Finding},
      (∃ found w', Yields (next w) w found w' ∧ Answers cfg t id w.assembly.heap w'.assembly.heap) →
      ∃ found w', Yields (get >>= next) w found w' ∧
        Answers cfg t id w.assembly.heap w'.assembly.heap :=
    fun ⟨found, w', hyields, hanswers⟩ =>
      ⟨found, w', Yields.bind_iff.mpr ⟨w, w, rfl, hyields⟩, hanswers⟩
  -- Most meanings are found without a look at variables.
  have hpure : ∀ (found : Finding), t.asked? id = none →
      ∃ found' w', Yields (pure found : Compile Finding) w found' w' ∧
        Answers cfg t id w.assembly.heap w'.assembly.heap :=
    fun found hnone => ⟨found, w, rfl, .refl hnone _⟩
  unfold taggedFinding
  refine hget ?_
  dsimp only
  split
  next hdeclare =>
    obtain ⟨name, type, hmakes⟩ := h.declares (hdeclare ▸ htag) hleaf
    rw [Compile.nameAt_eq hmakes.1.2.2, pure_bind]
    exact hpure _ (hword (by rw [hdeclare]; decide) (by rw [hdeclare]; decide))
  split
  next hasm => exact hpure _ (hword (by rw [hasm]; decide) (by rw [hasm]; decide))
  split
  next hconditional =>
    exact hpure _ (hword (by rw [hconditional.1]; decide) (by rw [hconditional.1]; decide))
  split
  next child hchildren =>
    split
    next htag' =>
      have hasked := asked?_of_get (htag' ▸ htag) hchildren
      obtain ⟨name, hname⟩ := h.asks child hasked
      rw [Compile.nameAt_eq hname, pure_bind]
      obtain ⟨heap, htype, hanswers⟩ := exists_typeOf? hsound hasked hname w
      have hkind : heap.kind? name ≠ none := by
        rw [(hanswers name).1 ⟨child, hasked, hname⟩]
        exact hread htag' name ⟨child, hasked, hname⟩
      obtain ⟨kind, hkind⟩ := Option.ne_none_iff_exists'.mp hkind
      rw [hkind] at htype
      exact ⟨_, _, Yields.bind_iff.mpr ⟨_, _, htype, rfl⟩, hanswers⟩
    next hne =>
      have hnone : t.asked? id = none :=
        asked?_eq_none (fun _ _ => hother hne) fun _ _ hpair => by simp [hchildren] at hpair
      split
      next htypeOf =>
        obtain ⟨name, type, hname, htype⟩ := h.types child (htypeOf ▸ htag) hchildren
        rw [Compile.nameAt_eq hname, pure_bind, htype]
        exact hpure _ hnone
      next => exact hpure _ hnone
  next first second hchildren =>
    split
    next htag' =>
      have hasked := asked?_of_set (htag' ▸ htag) hchildren
      obtain ⟨name, hname⟩ := h.asks first hasked
      rw [Compile.nameAt_eq hname, pure_bind]
      obtain ⟨heap, htype, hanswers⟩ := exists_typeOf? hsound hasked hname w
      exact ⟨_, _, Yields.bind_iff.mpr ⟨_, _, htype, rfl⟩, hanswers⟩
    next hne =>
      have hnone : t.asked? id = none :=
        asked?_eq_none (fun _ hsingle => by simp [hchildren] at hsingle) fun _ _ _ => hother hne
      split
      · exact hpure _ hnone
      split
      · exact hpure _ hnone
      · exact hpure _ hnone
  next hone htwo =>
    exact hpure _ (asked?_eq_none (fun child hsingle => absurd hsingle (hone child))
      fun first second hpair => absurd hpair (htwo first second))

theorem Sensible.exists_classify (h : Sensible cfg t id) (hsound : cfg.catalog.types.Sound)
    (hread : t.tag id = .string Keyword.get → ∀ name, t.Asks id name →
      (w.assembly.heap.kind? name <|> (cfg.catalog.predefined.get? name).map (·, false)) ≠ none) :
    ∃ found w', Yields (classify cfg t id) w found w' ∧
      Answers cfg t id w.assembly.heap w'.assembly.heap := by
  unfold classify
  dsimp only
  split
  next hleaf =>
    refine ⟨_, w, rfl, .refl ?_ _⟩
    rw [Tree.asked?, Tree.children, List.isEmpty_iff.mp hleaf]
  next hleaf =>
    split
    next htag =>
      obtain ⟨found, w', hyields, hassembly⟩ := exists_sequenceFinding cfg t _ w
      refine ⟨found, w', hyields, ?_⟩
      rw [hassembly]
      have htag' : t.tag id = .null := htag
      exact .refl (asked?_eq_none (by simp [htag']) (by simp [htag'])) _
    next tag htag =>
      have htag' : t.tag id = .string tag := htag
      exact h.exists_taggedFinding hsound htag' (by simpa using hleaf)
        fun hword => hread (hword ▸ htag')
    next hnull hstring =>
      exact ⟨_, w, rfl, .refl (asked?_eq_none (fun _ _ => hstring _) fun _ _ _ => hstring _) _⟩

/-! ### What the second pass checks

From a node that was given a meaning back to what made it sensible. Reads, assignments and
`typeof` are inverted one by one, as they ask something of a child; the others follow from their
tags. -/

theorem isLeaf_of_cons {first : NodeId} {rest : List NodeId} (h : t.children id = first :: rest) :
    (t.node id).isLeaf = false := by
  rw [Node.isLeaf, show (t.node id).children = first :: rest from h]
  rfl

theorem classify_finds {tag : String} {found : Finding} (htag : t.tag id = .string tag)
    (hleaf : (t.node id).isLeaf = false) (h : Yields (classify cfg t id) w found w') :
    Finds cfg t w id tag found w' := by
  obtain ⟨hleaf', -⟩ | ⟨-, ⟨hnull, -⟩ | ⟨tag', htag', hfound⟩ | ⟨-, hother, -⟩⟩ := classify_cases h
  · rw [hleaf] at hleaf'
    cases hleaf'
  · rw [htag] at hnull
    cases hnull
  · obtain rfl := Value.string.inj (htag.symm.trans htag')
    exact taggedFinding_finds hfound
  · exact absurd htag (hother tag)

/-- A read that is given a meaning names a variable that has a slot, or is predefined. -/
theorem classify_get (hsound : cfg.catalog.types.Sound) {child : NodeId} {found : Finding}
    (htag : t.tag id = .string Keyword.get) (hchildren : t.children id = [child])
    (h : Yields (classify cfg t id) w found w') :
    ∃ name, t.Named child name ∧
      (w.assembly.heap.kind? name <|> (cfg.catalog.predefined.get? name).map (·, false)) ≠ none := by
  cases classify_finds htag (isLeaf_of_cons hchildren) h with
  | @get _ name _ _ _ hone hname htype =>
    obtain rfl := List.singleton_inj.mp (hone.symm.trans hchildren)
    have hasked := asked?_of_get htag hchildren
    obtain ⟨heap, htype', hanswers⟩ := exists_typeOf? hsound hasked hname w
    obtain ⟨hsome, -⟩ := htype.unique htype'
    refine ⟨name, hname, ?_⟩
    rw [← (hanswers name).1 ⟨_, hasked, hname⟩]
    intro hnone
    rw [hnone] at hsome
    cases hsome
  | call _ _ _ hone _ => exact absurd rfl (hone child hchildren).1
  | _ word => exact absurd word (by decide)

theorem classify_set {first second : NodeId} {found : Finding} (htag : t.tag id = .string Keyword.set)
    (hchildren : t.children id = [first, second]) (h : Yields (classify cfg t id) w found w') :
    ∃ name, t.Named first name := by
  cases classify_finds htag (isLeaf_of_cons hchildren) h with
  | @set _ _ name _ _ _ htwo hname _ =>
    obtain ⟨rfl, -⟩ := List.cons.inj (htwo.symm.trans hchildren)
    exact ⟨name, hname⟩
  | call _ _ _ _ htwo => exact absurd rfl (htwo first second hchildren).1
  | _ word => exact absurd word (by decide)

theorem classify_typeOf {child : NodeId} {found : Finding}
    (htag : t.tag id = .string Keyword.typeOf) (hchildren : t.children id = [child])
    (h : Yields (classify cfg t id) w found w') :
    ∃ name type, t.Named child name ∧ cfg.catalog.types.lookup name = some type := by
  cases classify_finds htag (isLeaf_of_cons hchildren) h with
  | @typeOf _ name type _ hone hname hknown =>
    obtain rfl := List.singleton_inj.mp (hone.symm.trans hchildren)
    exact ⟨name, type, hname, hknown⟩
  | call _ _ _ hone _ => exact absurd rfl (hone child hchildren).2
  | _ word => exact absurd word (by decide)

/-- A node that is visited and given a meaning makes sense. -/
theorem sensible_of_yields {found : Finding} (hsound : cfg.catalog.types.Sound)
    (h : Yields (classify cfg t id) w found w')
    (hannounced : Announced t w id)
    (hmade : t.tag id = .string Keyword.declare → (t.node id).isLeaf = false →
      ∃ name type, Makes cfg t id name type) : Sensible cfg t id := by
  refine ⟨hmade, fun hevent => ?_, fun child hchild => ?_, fun child htag hchildren =>
    classify_typeOf htag hchildren h⟩
  · obtain ⟨first, label, hfirst, hlabel, -⟩ := hannounced.entryPoint hevent
    exact ⟨label, Tree.eventLabel?_eq_some hevent hfirst hlabel.1, hlabel.2⟩
  · unfold Tree.asked? at hchild
    split at hchild
    next only hchildren =>
      split at hchild
      next htag =>
        obtain ⟨name, hname, -⟩ := classify_get hsound htag hchildren h
        exact ⟨name, Option.some.inj hchild ▸ hname⟩
      next => cases hchild
    next first second hchildren =>
      split at hchild
      next htag =>
        obtain ⟨name, hname⟩ := classify_set htag hchildren h
        exact ⟨name, Option.some.inj hchild ▸ hname⟩
      next => cases hchild
    next => cases hchild

/-! ### All visits

`Answered` is `Answers` for part of the way back. It is kept by one more node, and keeps in turn
what may already be read, so that the induction over the nodes needs nothing but the lemmas for
one of them. -/

/-- After part of the way back, the kinds of slots are those that there were, but for predefined
names that the nodes gone over ask for. -/
structure Answered (cfg : Setting) (t : Tree) (done : List NodeId) (heap heap' : Heap) : Prop where
  asked : ∀ id ∈ done, ∀ name, t.Asks id name → heap'.kind? name =
    (heap.kind? name <|> (cfg.catalog.predefined.get? name).map (·, false))
  others : ∀ name, (∀ id ∈ done, ¬ t.Asks id name) → heap'.kind? name = heap.kind? name

theorem Answered.refl (cfg : Setting) (t : Tree) (heap : Heap) : Answered cfg t [] heap heap :=
  ⟨by simp, fun _ _ => rfl⟩

theorem Answered.cons {done : List NodeId} {heap heap₁ heap₂ : Heap}
    (h : Answered cfg t done heap heap₁) (hanswers : Answers cfg t id heap₁ heap₂) :
    Answered cfg t (id :: done) heap heap₂ := by
  have hasked : ∀ name, (∃ other ∈ done, t.Asks other name) ∨ heap₁.kind? name = heap.kind? name := by
    intro name
    by_cases hsome : ∃ other ∈ done, t.Asks other name
    · exact Or.inl hsome
    · exact Or.inr (h.others name fun other hother hasks => hsome ⟨other, hother, hasks⟩)
  refine ⟨fun other hother name hasks => ?_, fun name hnone => ?_⟩
  · by_cases hid : t.Asks id name
    · rw [(hanswers name).1 hid]
      rcases hasked name with ⟨node, hnode, hnodeAsks⟩ | hsame
      · rw [h.asked node hnode name hnodeAsks]
        cases heap.kind? name <;> simp
      · rw [hsame]
    · rw [(hanswers name).2 hid]
      rcases List.mem_cons.mp hother with rfl | hother
      · exact absurd hasks hid
      · exact h.asked other hother name hasks
  · rw [(hanswers name).2 (hnone id List.mem_cons_self)]
    exact h.others name fun other hother => hnone other (List.mem_cons_of_mem _ hother)

/-- A name that is in use stays so. -/
theorem Answered.keeps {done : List NodeId} {heap heap' : Heap} (h : Answered cfg t done heap heap')
    {name : String} {kind : TypeId × Bool} (hkind : heap.kind? name = some kind) :
    heap'.kind? name = some kind := by
  by_cases hsome : ∃ id ∈ done, t.Asks id name
  · obtain ⟨id, hid, hasks⟩ := hsome
    rw [h.asked id hid name hasks, hkind]
    rfl
  · rw [h.others name fun id hid hasks => hsome ⟨id, hid, hasks⟩, hkind]

/-- What can be read stays the same. -/
theorem Answered.known {done : List NodeId} {heap heap' : Heap} (h : Answered cfg t done heap heap')
    (name : String) :
    (heap'.kind? name <|> (cfg.catalog.predefined.get? name).map (·, false)) =
      (heap.kind? name <|> (cfg.catalog.predefined.get? name).map (·, false)) := by
  by_cases hsome : ∃ id ∈ done, t.Asks id name
  · obtain ⟨id, hid, hasks⟩ := hsome
    rw [h.asked id hid name hasks]
    cases heap.kind? name <;> simp
  · rw [h.others name fun id hid hasks => hsome ⟨id, hid, hasks⟩]

/-- A variable that the node reads has a slot, or is predefined. -/
def Reads (cfg : Setting) (t : Tree) (heap : Heap) (id : NodeId) : Prop :=
  t.tag id = .string Keyword.get → ∀ name, t.Asks id name →
    (heap.kind? name <|> (cfg.catalog.predefined.get? name).map (·, false)) ≠ none

theorem reads_of_yields {found : Finding} (hsound : cfg.catalog.types.Sound)
    (h : Yields (classify cfg t id) w found w') : Reads cfg t w.assembly.heap id := by
  rintro htag name ⟨child, hasked, hname⟩
  unfold Tree.asked? at hasked
  split at hasked
  next only hchildren =>
    obtain ⟨name', hname', hknown⟩ := classify_get hsound htag hchildren h
    obtain rfl := Option.some.inj ((if_pos htag).symm.trans hasked)
    rwa [hname'.unique hname]
  next =>
    rw [htag, if_neg (by decide)] at hasked
    cases hasked
  next => cases hasked

/-- When the way back succeeds, all nodes make sense, and what they ask for has its slot. -/
theorem classifyAll_answers (hsound : cfg.catalog.types.Sound) {ids done : List NodeId}
    {heap : Heap} (h : Yields (classifyAll cfg t ids) w () w')
    (hannounced : ∀ id ∈ ids, Announced t w id)
    (hmade : ∀ id ∈ ids, t.tag id = .string Keyword.declare → (t.node id).isLeaf = false →
      ∃ name type, Makes cfg t id name type)
    (hdone : Answered cfg t done heap w.assembly.heap) :
    Answered cfg t (ids.reverse ++ done) heap w'.assembly.heap ∧
      ∀ id ∈ ids, Sensible cfg t id ∧ Reads cfg t heap id := by
  induction ids generalizing w done with
  | nil =>
    obtain ⟨-, rfl⟩ := Yields.pure_iff.mp h
    exact ⟨hdone, by simp⟩
  | cons id ids ih =>
    simp only [classifyAll, Yields.bind_iff, Yields.modify_iff, Compilation.at_iff] at h
    obtain ⟨found, w₁, hclassify, _, _, rfl, hrest⟩ := h
    have hid := hannounced id List.mem_cons_self
    have hsensible := sensible_of_yields hsound hclassify hid (hmade id List.mem_cons_self)
    have hreads := reads_of_yields hsound hclassify
    obtain ⟨found', w₂, hclassify', hanswers⟩ := hsensible.exists_classify hsound hreads
    obtain ⟨rfl, rfl⟩ := hclassify'.unique hclassify
    have hremembers := (classify_byRule hclassify hid).1.remembers.record id found
    obtain ⟨hanswered, hall⟩ := ih (w := w₁.record id found) hrest
      (fun other hother => (hannounced other (List.mem_cons_of_mem _ hother)).mono hremembers)
      (fun other hother => hmade other (List.mem_cons_of_mem _ hother)) (hdone.cons hanswers)
    refine ⟨by simpa using hanswered, fun other hother => ?_⟩
    rcases List.mem_cons.mp hother with rfl | hother
    · exact ⟨hsensible, fun htag name hasks => hdone.known name ▸ hreads htag name hasks⟩
    · exact hall other hother

theorem exists_classifyAll (hsound : cfg.catalog.types.Sound) {ids done : List NodeId} {heap : Heap}
    (h : ∀ id ∈ ids, Sensible cfg t id ∧ Reads cfg t heap id)
    (hdone : Answered cfg t done heap w.assembly.heap) :
    ∃ w', Yields (classifyAll cfg t ids) w () w' := by
  induction ids generalizing w done with
  | nil => exact ⟨w, rfl⟩
  | cons id ids ih =>
    obtain ⟨hsensible, hreads⟩ := h id List.mem_cons_self
    obtain ⟨found, w₁, hclassify, hanswers⟩ := hsensible.exists_classify (w := w) hsound
      fun htag name hasks => (hdone.known name).symm ▸ hreads htag name hasks
    obtain ⟨w₂, hrest⟩ := ih (w := w₁.record id found)
      (fun other hother => h other (List.mem_cons_of_mem _ hother)) (hdone.cons hanswers)
    exact ⟨w₂, Yields.bind_iff.mpr ⟨found, w₁, Compilation.at_iff.mpr hclassify,
      Yields.bind_iff.mpr ⟨⟨⟩, _, rfl, hrest⟩⟩⟩

end Resolution

/-! ## Both passes

The two invariants put together. Nodes are visited in some order, but both sides speak of all
visited nodes, so `resolved_settled` and its converse `Resolvable.resolved` do not depend on it. -/

theorem Resolution.Ledger.start (cfg : Setting) (t : Tree) : Ledger cfg t [] ({} : Heap) :=
  ⟨by simp, by simp, fun name kind hkind => by cases hkind⟩

/-- Resolution that succeeds leaves slots of kinds that do not depend on the order of its visits, and
succeeds for reasons that do not either. -/
theorem Program.resolved_settled {cfg : Setting} {t : Tree} {w : Workspace}
    (hsound : cfg.catalog.types.Sound) (ht : t.Linked) (hroot : Tree.root < t.size)
    (hplain : Plain cfg.catalog t) (h : Program.resolved cfg t = .ok w) :
    Resolvable cfg t ∧ Resolution.Settled cfg t w.assembly.heap := by
  obtain ⟨declared, hlevels, hclassify, -, -, hannounced⟩ := Program.resolved_visits h
  have hledger : Resolution.Ledger cfg t t.visits declared.assembly.heap :=
    (declareLevels_visits hlevels).2.ledger hplain (Ledger.start cfg t)
  obtain ⟨hanswered, hall⟩ := classifyAll_answers hsound hclassify
    (fun id hid => hannounced id (List.mem_reverse.mp hid))
    (fun id hid => hledger.made id (List.mem_reverse.mp hid)) (.refl cfg t _)
  rw [List.reverse_reverse, List.append_nil] at hanswered
  have hvisited : ∀ {id}, t.Visited id ↔ id ∈ t.visits := (ht.mem_visits hroot).symm
  -- A variable that the declarations have given no slot.
  have hfree : ∀ {name}, ¬ t.PointerLike name →
      (∀ d type, t.Visited d → ¬ Makes cfg t d name type) →
      declared.assembly.heap.kind? name = none := by
    intro name hpointer hnone
    cases hkind : declared.assembly.heap.kind? name with
    | none => rfl
    | some kind =>
      rcases (hledger.backed name kind hkind).2 with ⟨d, hd, hmade⟩ | hlike
      · exact absurd hmade (hnone d kind.1 (hvisited.mpr hd))
      · exact absurd hlike hpointer
  have hordinary : ∀ {id name}, t.Asks id name → ¬ t.PointerLike name :=
    fun ⟨child, _, hname⟩ => hplain.texts child _ hname.1
  refine ⟨⟨fun id hid => (hall id (List.mem_reverse.mpr (hvisited.mp hid))).1,
    fun id id' name type type' hid hid' hmade hmade' => ?_, fun id name hid htag hasks => ?_⟩,
    fun id name type hid hmade => ?_, fun id name hid hasks hnone => ?_,
    fun name hpointer hasks hnone => ?_, fun name kind hkind => ?_⟩
  · have hkind := hledger.declared id (hvisited.mp hid) name type hmade
    have hkind' := hledger.declared id' (hvisited.mp hid') name type' hmade'
    exact (Prod.mk.inj (Option.some.inj (hkind'.symm.trans hkind))).1
  · by_contra hnone
    obtain ⟨hmade, hpinned⟩ := not_or.mp hnone
    have hreads := (hall id (List.mem_reverse.mpr (hvisited.mp hid))).2 htag name hasks
    rw [hfree (hordinary hasks) fun d type hd hmade' => hmade ⟨d, type, hd, hmade'⟩] at hreads
    rw [Bool.not_eq_true, OrderedMap.contains_eq_false_iff] at hpinned
    rw [hpinned] at hreads
    exact hreads rfl
  · exact hanswered.keeps (hledger.declared id (hvisited.mp hid) name type hmade)
  · rw [hanswered.asked id (hvisited.mp hid) name hasks, hfree (hordinary hasks) hnone]
    rfl
  · rw [hanswered.others name fun id hid => hasks id (hvisited.mpr hid), hfree hpointer hnone]
  · by_cases hsome : ∃ id ∈ t.visits, t.Asks id name
    · obtain ⟨id, hid, hasks⟩ := hsome
      rw [hanswered.asked id hid name hasks] at hkind
      cases hbefore : declared.assembly.heap.kind? name with
      | some kind' =>
        rw [hbefore] at hkind
        obtain rfl := Option.some.inj hkind
        exact (hledger.backed name kind' hbefore).1
      | none =>
        rw [hbefore] at hkind
        obtain ⟨type, -, rfl⟩ := Option.map_eq_some_iff.mp hkind
        rfl
    · rw [hanswered.others name fun id hid hasks => hsome ⟨id, hid, hasks⟩] at hkind
      exact (hledger.backed name kind hkind).1

/-- A tree that has what resolution asks for is resolved. -/
theorem Resolution.Resolvable.resolved {cfg : Setting} {t : Tree} (h : Resolvable cfg t)
    (hsound : cfg.catalog.types.Sound) (ht : t.Linked) (hroot : Tree.root < t.size)
    (hplain : Plain cfg.catalog t) : ∃ w, Program.resolved cfg t = .ok w := by
  obtain ⟨order, declared, hlevels⟩ :
      ∃ order w', Yields (declareLevels cfg t t.size [Tree.root]) (.forTree t) order w' :=
    h.exists_declareLevels hplain (fun id hid => by cases hid)
      (fun id hid => List.mem_singleton.mp hid ▸ .root) (Ledger.start cfg t)
  obtain ⟨horder, hvisits⟩ := declareLevels_visits hlevels
  have hledger := hvisits.ledger hplain (Ledger.start cfg t)
  have hvisited : ∀ {id}, t.Visited id ↔ id ∈ order := by
    intro id
    rw [horder]
    exact (ht.mem_visits hroot).symm
  have hall : ∀ id ∈ order.reverse, Sensible cfg t id ∧ Reads cfg t declared.assembly.heap id := by
    intro id hid
    replace hid := hvisited.mpr (List.mem_reverse.mp hid)
    refine ⟨h.sensible id hid, fun htag name hasks => ?_⟩
    rcases h.reads id name hid htag hasks with ⟨d, type, hd, hmade⟩ | hpinned
    · rw [hledger.declared d (by simpa using hvisited.mp hd) name type hmade]
      exact Option.some_ne_none _
    · obtain ⟨type, htype⟩ := OrderedMap.contains_iff.mp hpinned
      rw [htype]
      cases declared.assembly.heap.kind? name <;> exact Option.some_ne_none _
  obtain ⟨w, hclassify⟩ := exists_classifyAll hsound hall (.refl cfg t _)
  exact ⟨w, Program.resolved_eq_ok_iff.mpr (Yields.bind_iff.mpr ⟨order, declared, hlevels,
    hclassify⟩)⟩

end SexprAsm
