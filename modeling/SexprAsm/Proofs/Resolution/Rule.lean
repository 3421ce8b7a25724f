import SexprAsm.Proofs.Resolution.Visits

/-!
# The rule that gives a node its meaning

`rule` gives the construct and the type of a node from its tag, the types of its children and the
types of variables, with no state. Classifying a node follows it, and at most makes slots for
predefined names on the way (`Predefines`). Such slots change nothing for nodes classified before:
a name that was looked up had its slot, or is not predefined and stays without one
(`classify_byRule`).

A construct is only recorded for nodes of its shape (`Shaped`).
-/

namespace SexprAsm

/-- The type of a slot. -/
def Heap.slotType? (heap : Heap) (name : String) : Option TypeId :=
  (heap.slots.get? name).map (·.type)

namespace Resolution

/-! ## The rule

The rule looks at the tag of a node, at the types of its children, and at the types of variables.
It neither fails nor records anything, which sets it apart from classification. -/

section Rule

variable (cfg : Setting) (t : Tree) (slotType : String → Option TypeId)
  (typeOf : NodeId → Option TypeId)

/-- A call by name: an overload that accepts the types of the arguments, then a cast, then an array
fill. -/
def callRule (tag : String) (children : List NodeId) : Finding :=
  let types := cfg.catalog.types
  let overload := (children.mapM typeOf).bind (cfg.catalog.resolveOverload tag)
  let castTarget :=
    if children.length = 1 then (Text.dropLead? "!" tag).bind types.lookup else none
  let array := do
    let name ← Text.dropLead? "To" tag
    let _ ← Text.dropTail? "Array" name
    let type ← types.lookup name
    if (types.info type).isArray then some type else none
  match overload, castTarget, array with
  | some id, _, _ => ⟨some (.call id), (cfg.catalog.operation id).returnType?⟩
  | none, some type, _ => ⟨some (.cast type), some type⟩
  | none, none, some type => ⟨some (.arrayFill type), some type⟩
  | none, none, none => {}

/-- The type of the variable that a node names. -/
def namedType? (id : NodeId) : Option TypeId := (t.tag id).text?.bind slotType

/-- A tagged list: a keyword with children to match, or a call by name. -/
def taggedRule (tag : String) (children : List NodeId) : Finding :=
  let types := cfg.catalog.types
  if tag = Keyword.declare then ⟨some .declare, namedType? t slotType (children.headD 0)⟩
  else if tag = Keyword.inlineAsm then ⟨some .inlineAsm, none⟩
  else if tag = Keyword.conditional ∧ 1 < children.length then
    ⟨some .conditional, ((branches children).mapM typeOf).bind types.commonAncestor⟩
  else
    match children with
    | [child] =>
      if tag = Keyword.get then ⟨some .get, namedType? t slotType child⟩
      else if tag = Keyword.typeOf then
        match (t.tag child).text?.bind types.lookup with
        | some type => ⟨some (.typeOf type), some (types.builtin TypeTable.typeTypeName)⟩
        | none => {}
      else callRule cfg typeOf tag children
    | [first, second] =>
      if tag = Keyword.set then
        ⟨some .set, some ((namedType? t slotType first <|> typeOf second).getD TypeTable.object)⟩
      else if tag = Keyword.loop then ⟨some .loop, typeOf second⟩
      else if tag = Keyword.event then ⟨some .event, typeOf second⟩
      else callRule cfg typeOf tag children
    | _ => callRule cfg typeOf tag children

/-- A leaf is a literal, a list without a tag a sequence. -/
def rule (id : NodeId) : Finding :=
  if (t.node id).isLeaf then ⟨some .literal, some (cfg.catalog.types.typeOf (t.tag id))⟩
  else
    match t.tag id with
    | .null => ⟨some .sequence, (t.children id).getLast?.bind typeOf⟩
    | .string tag => taggedRule cfg t slotType typeOf tag (t.children id)
    | _ => {}

/-- A bare name calls an operation without arguments, or an event. -/
def bareRule (isLabel : String → Bool) (id : NodeId) : Option Finding :=
  (t.tag id).text?.bind fun name =>
    match cfg.catalog.resolveOverload name [] with
    | some op => some ⟨some (.call op), (cfg.catalog.operation op).returnType?⟩
    | none => if isLabel name then some ⟨some .callEvent, some TypeTable.object⟩ else none

/-- What a node makes of a child: the only item of a list without a tag may be a bare call. -/
def itemRule (isLabel : String → Bool) (p c : NodeId) : Option Finding :=
  if t.tag p = .null ∧ t.children p = [c] then bareRule cfg t isLabel c else none

end Rule

variable {cfg : Setting} {t : Tree} {w w' : Workspace} {id : NodeId} {found : Finding}

theorem bareCall?_eq (id : NodeId) :
    bareCall? cfg t w id = bareRule cfg t w.entryPoints.contains id := by
  unfold bareCall? bareRule
  refine congrArg ((t.tag id).text?.bind ·) (funext fun name => ?_)
  cases cfg.catalog.resolveOverload name [] with
  | some op => rfl
  | none =>
    show (w.entryPoints.get? name).bind _ = _
    cases hentry : w.entryPoints.get? name <;> simp [OrderedMap.contains, hentry]

theorem itemRule_eq_some {isLabel : String → Bool} {p c : NodeId}
    (h : itemRule cfg t isLabel p c = some found) :
    t.tag p = .null ∧ t.children p = [c] ∧ bareRule cfg t isLabel c = some found := by
  unfold itemRule at h
  split at h
  next hitem => exact ⟨hitem.1, hitem.2, h⟩
  next => cases h

/-! ## Slots that are made on the way

Asking for the type of a predefined variable makes its slot. This is all that the way back does
to the heap, and it does not change what a later look-up finds. -/

/-- A heap with more slots, all of them under predefined names. -/
structure Predefines (c : Catalog) (heap heap' : Heap) : Prop where
  slots : ∀ name v, heap.slots.get? name = some v → heap'.slots.get? name = some v
  others : ∀ name, c.predefined.get? name = none → heap'.slots.get? name = heap.slots.get? name

theorem Predefines.refl (c : Catalog) (heap : Heap) : Predefines c heap heap :=
  ⟨fun _ _ h => h, fun _ _ => rfl⟩

theorem Predefines.trans {c : Catalog} {heap heap' heap'' : Heap} (h : Predefines c heap heap')
    (h' : Predefines c heap' heap'') : Predefines c heap heap'' :=
  ⟨fun name v hv => h'.slots name v (h.slots name v hv),
    fun name hname => (h'.others name hname).trans (h.others name hname)⟩

theorem Predefines.slotType?_eq_some {c : Catalog} {heap heap' : Heap} {name : String}
    {type : TypeId} (h : Predefines c heap heap') (htype : heap.slotType? name = some type) :
    heap'.slotType? name = some type := by
  obtain ⟨v, hv, rfl⟩ := Option.map_eq_some_iff.mp htype
  rw [Heap.slotType?, h.slots name v hv]
  rfl

/-- What a look-up of a type finds stays the same while predefined slots are made. -/
theorem typeOf?_predefines {name : String} {type : Option TypeId}
    (h : Yields (Compile.emit (Emit.typeOf? cfg name)) w type w') :
    ∃ heap, Predefines cfg.catalog w.assembly.heap heap ∧
      w' = { w with assembly := { w.assembly with heap := heap } } ∧
      ∀ heap', Predefines cfg.catalog heap heap' → heap'.slotType? name = type := by
  obtain ⟨a, htype, rfl⟩ := Compile.emit_iff.mp h
  obtain ⟨heap, hheap, rfl⟩ := Emit.onHeap_iff.mp htype
  refine ⟨heap, ⟨(Heap.typeOf?_extends hheap).slots, fun other hother => ?_⟩, rfl, ?_⟩
  · rcases (Heap.typeOf?_ok hheap).2 with ⟨rfl, -⟩ | ⟨-, pinned, hpinned, hdefine⟩
    · rfl
    · obtain ⟨-, rfl⟩ := Heap.define_ok hdefine
      rw [OrderedMap.get?_put, if_neg]
      rintro rfl
      rw [hpinned] at hother
      cases hother
  · intro heap' hheap'
    cases type with
    | some type => exact hheap'.slotType?_eq_some (Heap.typeOf?_ok hheap).1.symm
    | none =>
      obtain ⟨rfl, hnone, hpredefined⟩ := Heap.typeOf?_none hheap
      rw [Heap.slotType?, hheap'.others name hpredefined, hnone]
      rfl

/-! ## Shapes

A node is given a construct only if its children are as the construct needs them. The cases are
those of the rule. -/

/-- What the children of a node look like that has a construct. -/
def Shaped (t : Tree) (id : NodeId) : Construct → Prop
  | .get => ∃ child name, t.children id = [child] ∧ t.Named child name
  | .set => ∃ first second name, t.children id = [first, second] ∧ t.Named first name
  | .declare => ∃ first name, (t.children id)[0]? = some first ∧ t.Named first name
  | .conditional => 1 < (t.children id).length
  | .loop => (t.children id).length = 2
  | .event => ∃ first second label, t.children id = [first, second] ∧ t.Named first label
  | .cast _ => (t.children id).length = 1
  | .callEvent => ∃ label, t.Named id label
  | .sequence => t.tag id = .null
  | _ => True

theorem callRule_shaped {typeOf : NodeId → Option TypeId} {tag : String} {construct : Construct}
    (h : (callRule cfg typeOf tag (t.children id)).construct = some construct) :
    Shaped t id construct := by
  unfold callRule at h
  dsimp only at h
  split at h
  next =>
    obtain rfl := Option.some.inj h
    trivial
  next type _ hcast =>
    obtain rfl := Option.some.inj h
    -- A cast is looked for only over a single child.
    split at hcast
    next hlength => exact hlength
    next => cases hcast
  next =>
    obtain rfl := Option.some.inj h
    trivial
  next => cases h

theorem bareRule_shaped {isLabel : String → Bool} {construct : Construct}
    (hlabels : ∀ label, isLabel label = true → label.isEmpty = false)
    (h : bareRule cfg t isLabel id = some found) (hconstruct : found.construct = some construct) :
    Shaped t id construct := by
  obtain ⟨name, hname, h⟩ := Option.bind_eq_some_iff.mp h
  split at h
  next op =>
    obtain rfl := Option.some.inj h
    obtain rfl := Option.some.inj hconstruct
    trivial
  next =>
    split at h
    next hlabel =>
      obtain rfl := Option.some.inj h
      obtain rfl := Option.some.inj hconstruct
      exact ⟨name, hname, hlabels name hlabel⟩
    next => cases h

/-! ## Classification follows the rule

What classification finds is what the rule says, at the time and later (`ByRule`). The equations
of the rule for each keyword (`taggedRule_get` and its siblings) take the two apart in the same
way. -/

/-- A node has been classified by the rule, and what it found stays right while predefined slots
are made. -/
structure ByRule (cfg : Setting) (t : Tree) (id : NodeId) (w : Workspace) (found : Finding)
    (w' : Workspace) : Prop where
  predefines : Predefines cfg.catalog w.assembly.heap w'.assembly.heap
  entryPoints : w'.entryPoints = w.entryPoints
  rule : ∀ heap, Predefines cfg.catalog w'.assembly.heap heap →
    found = rule cfg t heap.slotType? w'.nodeType? id
  shaped : ∀ construct, found.construct = some construct → Shaped t id construct

/-- What was found is what the rule says, with no look at variables. -/
theorem ByRule.plain (hrule : ∀ slotType, found = Resolution.rule cfg t slotType w.nodeType? id)
    (hshaped : ∀ construct, found.construct = some construct → Shaped t id construct) :
    ByRule cfg t id w found w :=
  ⟨.refl _ _, rfl, fun heap _ => hrule heap.slotType?, hshaped⟩

theorem rule_of_tagged {tag : String} {slotType : String → Option TypeId}
    {typeOf : NodeId → Option TypeId} (hleaf : (t.node id).isLeaf = false)
    (htag : t.tag id = .string tag) :
    rule cfg t slotType typeOf id = taggedRule cfg t slotType typeOf tag (t.children id) := by
  rw [rule, if_neg (by simp [hleaf]), htag]

section Keywords

variable {slotType : String → Option TypeId} {typeOf : NodeId → Option TypeId}
  {child first second : NodeId} {children : List NodeId}

theorem taggedRule_declare : taggedRule cfg t slotType typeOf Keyword.declare children =
    ⟨some .declare, namedType? t slotType (children.headD 0)⟩ := rfl

theorem taggedRule_inlineAsm : taggedRule cfg t slotType typeOf Keyword.inlineAsm children =
    ⟨some .inlineAsm, none⟩ := rfl

theorem taggedRule_conditional (h : 1 < children.length) :
    taggedRule cfg t slotType typeOf Keyword.conditional children =
      ⟨some .conditional,
        ((branches children).mapM typeOf).bind cfg.catalog.types.commonAncestor⟩ := by
  unfold taggedRule
  rw [if_neg (by decide), if_neg (by decide), if_pos ⟨rfl, h⟩]

theorem taggedRule_get : taggedRule cfg t slotType typeOf Keyword.get [child] =
    ⟨some .get, namedType? t slotType child⟩ := rfl

theorem taggedRule_typeOf : taggedRule cfg t slotType typeOf Keyword.typeOf [child] =
    match (t.tag child).text?.bind cfg.catalog.types.lookup with
    | some type =>
      ⟨some (.typeOf type), some (cfg.catalog.types.builtin TypeTable.typeTypeName)⟩
    | none => {} := rfl

theorem taggedRule_set : taggedRule cfg t slotType typeOf Keyword.set [first, second] =
    ⟨some .set, some ((namedType? t slotType first <|> typeOf second).getD TypeTable.object)⟩ := rfl

theorem taggedRule_loop : taggedRule cfg t slotType typeOf Keyword.loop [first, second] =
    ⟨some .loop, typeOf second⟩ := rfl

theorem taggedRule_event : taggedRule cfg t slotType typeOf Keyword.event [first, second] =
    ⟨some .event, typeOf second⟩ := rfl

end Keywords

/-- What is no keyword with children to match is a call by name. -/
theorem taggedRule_of_call {tag : String} {slotType : String → Option TypeId}
    {typeOf : NodeId → Option TypeId} (hdeclare : tag ≠ Keyword.declare)
    (hasm : tag ≠ Keyword.inlineAsm)
    (hconditional : ¬ (tag = Keyword.conditional ∧ 1 < (t.children id).length))
    (hone : ∀ child, t.children id = [child] → tag ≠ Keyword.get ∧ tag ≠ Keyword.typeOf)
    (htwo : ∀ first second, t.children id = [first, second] →
      tag ≠ Keyword.set ∧ tag ≠ Keyword.loop ∧ tag ≠ Keyword.event) :
    taggedRule cfg t slotType typeOf tag (t.children id) =
      callRule cfg typeOf tag (t.children id) := by
  unfold taggedRule
  rw [if_neg hdeclare, if_neg hasm, if_neg hconditional]
  split
  next child hchildren =>
    obtain ⟨hget, htypeOf⟩ := hone child hchildren
    rw [if_neg hget, if_neg htypeOf]
  next first second hchildren =>
    obtain ⟨hset, hloop, hevent⟩ := htwo first second hchildren
    rw [if_neg hset, if_neg hloop, if_neg hevent]
  next => rfl

theorem taggedFinding_byRule {tag : String}
    (h : Yields (taggedFinding cfg t tag (t.children id)) w found w')
    (htag : t.tag id = .string tag) (hleaf : (t.node id).isLeaf = false)
    (hannounced : Announced t w id) :
    ByRule cfg t id w found w' ∧ w'.findings = w.findings := by
  have hrule : ∀ {slotType : String → Option TypeId} {typeOf : NodeId → Option TypeId},
      rule cfg t slotType typeOf id = taggedRule cfg t slotType typeOf tag (t.children id) :=
    rule_of_tagged hleaf htag
  -- Most findings have nothing to do with variables.
  have hplain : ∀ {plain : Construct} {type : Option TypeId}, Shaped t id plain →
      (∀ slotType, taggedRule cfg t slotType w.nodeType? tag (t.children id) = ⟨some plain, type⟩) →
      ByRule cfg t id w ⟨some plain, type⟩ w ∧ w.findings = w.findings :=
    fun hshaped hfound => ⟨.plain (fun slotType => (hrule.trans (hfound slotType)).symm)
      fun construct hconstruct => Option.some.inj hconstruct ▸ hshaped, rfl⟩
  cases taggedFinding_finds h with
  | declare word named =>
    -- The variable of a declaration has had its slot since the declaration was visited.
    obtain ⟨name', hname, hslot⟩ := hannounced.slot (word ▸ htag) hleaf
    obtain rfl := named.unique hname
    obtain ⟨v, hv⟩ := OrderedMap.contains_iff.mp hslot
    refine ⟨⟨.refl _ _, rfl, fun heap hheap => ?_, fun construct hconstruct => ?_⟩, rfl⟩
    · subst word
      rw [hrule, taggedRule_declare, namedType?, named.1, Option.bind_some, Heap.slotType?,
        hheap.slots _ v hv, hv]
    · obtain rfl := Option.some.inj hconstruct
      cases hchildren : t.children id with
      | nil => simp [Node.isLeaf, show (t.node id).children = [] from hchildren] at hleaf
      | cons first rest =>
        exact ⟨first, _, by rw [hchildren]; rfl, by simpa [hchildren] using named⟩
  | inlineAsm word =>
    subst word
    exact hplain trivial fun slotType => taggedRule_inlineAsm
  | conditional word length =>
    subst word
    exact hplain length fun slotType => taggedRule_conditional length
  | get word children named asked =>
    subst word
    obtain ⟨heap, hpredefines, rfl, hlater⟩ := typeOf?_predefines asked
    refine ⟨⟨hpredefines, rfl, fun heap' hheap' => ?_, fun construct hconstruct => ?_⟩, rfl⟩
    · rw [hrule, children, ← hlater heap' hheap', taggedRule_get, namedType?, named.1,
        Option.bind_some]
    · obtain rfl := Option.some.inj hconstruct
      exact ⟨_, _, children, named⟩
  | typeOf word children named known =>
    subst word
    refine hplain trivial fun slotType => ?_
    rw [children, taggedRule_typeOf, named.1, Option.bind_some, known]
  | set word children named asked =>
    subst word
    obtain ⟨heap, hpredefines, rfl, hlater⟩ := typeOf?_predefines asked
    refine ⟨⟨hpredefines, rfl, fun heap' hheap' => ?_, fun construct hconstruct => ?_⟩, rfl⟩
    · rw [hrule, children, ← hlater heap' hheap', taggedRule_set, namedType?, named.1,
        Option.bind_some]
      rfl
    · obtain rfl := Option.some.inj hconstruct
      exact ⟨_, _, _, children, named⟩
  | loop word children =>
    subst word
    refine hplain (by rw [Shaped, children]; rfl) fun slotType => ?_
    rw [children, taggedRule_loop]
  | event word children =>
    -- The label was checked when the block was visited.
    have hevent : t.isEvent id = true :=
      Tree.isEvent_iff.mpr ⟨by rw [htag, word], by rw [children]; rfl⟩
    obtain ⟨first', label, hfirst, hlabel, -⟩ := hannounced.entryPoint hevent
    rw [children] at hfirst
    obtain rfl := Option.some.inj hfirst
    subst word
    refine hplain ⟨_, _, label, children, hlabel⟩ fun slotType => ?_
    rw [children, taggedRule_event]
  | call declare inlineAsm conditional one two =>
    refine ⟨.plain (fun slotType => ?_) fun _ hconstruct => callRule_shaped hconstruct, rfl⟩
    rw [hrule, taggedRule_of_call declare inlineAsm conditional one two]
    rfl

/-- A node is classified by the rule; beside it only an item that is a bare call is recorded. -/
theorem classify_byRule (h : Yields (classify cfg t id) w found w')
    (hannounced : Announced t w id) :
    ByRule cfg t id w found w' ∧
      ((w'.findings = w.findings ∧ ∀ c, itemRule cfg t w.entryPoints.contains id c = none) ∨
        ∃ only bare, itemRule cfg t w.entryPoints.contains id only = some bare ∧
          w'.findings = (w.record only bare).findings) := by
  -- A node that is no list without a tag has no such item.
  have hnone : t.tag id ≠ .null ∨ t.children id = [] →
      ∀ c, itemRule cfg t w.entryPoints.contains id c = none := by
    intro hother c
    refine if_neg fun hitem => ?_
    rcases hother with htag | hchildren
    · exact htag hitem.1
    · rw [hchildren] at hitem
      cases hitem.2
  rcases classify_cases h with ⟨hleaf, rfl, rfl⟩ | ⟨hleaf, ⟨htag, hsequence⟩ |
    ⟨tag, htag, htagged⟩ | ⟨hnull, hstring, rfl, rfl⟩⟩
  · refine ⟨.plain (fun slotType => ?_) fun construct hconstruct => ?_, Or.inl ⟨rfl, hnone ?_⟩⟩
    · rw [rule, if_pos hleaf]
    · obtain rfl := Option.some.inj hconstruct
      trivial
    · exact Or.inr (List.isEmpty_iff.mp hleaf)
  · obtain ⟨rfl, hitem⟩ := sequenceFinding_cases hsequence
    have hrule : ∀ {w₁ : Workspace}, w₁.assembly = w.assembly →
        w₁.entryPoints = w.entryPoints →
        ByRule cfg t id w ⟨some .sequence, (t.children id).getLast?.bind w₁.nodeType?⟩ w₁ := by
      intro w₁ hassembly hentries
      refine ⟨hassembly ▸ .refl _ _, hentries, fun heap _ => ?_, fun construct hconstruct => ?_⟩
      · rw [rule, if_neg (by simp [hleaf]), htag]
      · obtain rfl := Option.some.inj hconstruct
        exact htag
    rcases hitem with ⟨rfl, hitem⟩ | ⟨only, bare, honly, hbare, rfl⟩
    · refine ⟨hrule rfl rfl, Or.inl ⟨rfl, fun c => ?_⟩⟩
      unfold itemRule
      split
      next hc => exact (bareCall?_eq c).symm.trans (hitem c hc.2)
      next => rfl
    · refine ⟨hrule rfl rfl, Or.inr ⟨only, bare, ?_, rfl⟩⟩
      rw [itemRule, if_pos ⟨htag, honly⟩, ← bareCall?_eq]
      exact hbare
  · obtain ⟨hrule, hfindings⟩ := taggedFinding_byRule htagged htag hleaf hannounced
    exact ⟨hrule, Or.inl ⟨hfindings, hnone (Or.inl (by simp [htag]))⟩⟩
  · refine ⟨.plain (fun slotType => ?_) ?_, Or.inl ⟨rfl, hnone (Or.inl hnull)⟩⟩
    · rw [rule, if_neg (by simp [hleaf])]
      split
      next htag => exact absurd htag hnull
      next tag htag => exact absurd htag (hstring tag)
      next => rfl
    · intro construct hconstruct
      cases hconstruct

theorem ByRule.remembers {found : Finding} (h : ByRule cfg t id w found w') : Remembers w w' := by
  refine ⟨fun name hname => ?_, fun label hlabel => h.entryPoints ▸ hlabel, fun hlabels => ?_⟩
  · obtain ⟨v, hv⟩ := OrderedMap.contains_iff.mp hname
    exact OrderedMap.contains_iff.mpr ⟨v, h.predefines.slots name v hv⟩
  · rw [h.entryPoints]
    exact hlabels

/-- Classifying nodes makes predefined slots at most. -/
theorem classifyAll_byRule {ids : List NodeId} (h : Yields (classifyAll cfg t ids) w () w')
    (hannounced : ∀ id ∈ ids, Announced t w id) :
    Predefines cfg.catalog w.assembly.heap w'.assembly.heap ∧ w'.entryPoints = w.entryPoints ∧
      Remembers w w' := by
  induction ids generalizing w with
  | nil =>
    obtain ⟨-, rfl⟩ := Yields.pure_iff.mp h
    exact ⟨.refl _ _, rfl, .refl _⟩
  | cons id ids ih =>
    simp only [classifyAll, Yields.bind_iff, Yields.modify_iff, Compilation.at_iff] at h
    obtain ⟨found, w₁, hclassify, _, _, rfl, hrest⟩ := h
    obtain ⟨hrule, -⟩ := classify_byRule hclassify (hannounced id List.mem_cons_self)
    have hremembers := hrule.remembers.record id found
    obtain ⟨hpredefines, hentries, hremembers'⟩ := ih hrest fun other hother =>
      (hannounced other (List.mem_cons_of_mem _ hother)).mono hremembers
    exact ⟨hrule.predefines.trans hpredefines, hentries.trans hrule.entryPoints,
      hremembers.trans hremembers'⟩

/-- Classifying nodes records a construct only for nodes of its shape. -/
theorem classifyAll_shaped {ids : List NodeId} (h : Yields (classifyAll cfg t ids) w () w')
    (hannounced : ∀ id ∈ ids, Announced t w id)
    (hlabels : ∀ label, w.entryPoints.contains label = true → label.isEmpty = false)
    (hshaped : ∀ id construct, w.construct? id = some construct → Shaped t id construct) :
    ∀ id construct, w'.construct? id = some construct → Shaped t id construct := by
  induction ids generalizing w with
  | nil =>
    obtain ⟨-, rfl⟩ := Yields.pure_iff.mp h
    exact hshaped
  | cons id ids ih =>
    simp only [classifyAll, Yields.bind_iff, Yields.modify_iff, Compilation.at_iff] at h
    obtain ⟨found, w₁, hclassify, _, _, rfl, hrest⟩ := h
    obtain ⟨hrule, hitem⟩ := classify_byRule hclassify (hannounced id List.mem_cons_self)
    have hremembers := hrule.remembers.record id found
    refine ih hrest (fun other hother => (hannounced other (List.mem_cons_of_mem _ hother)).mono
      hremembers) (hremembers.labels hlabels) fun other construct hother => ?_
    -- The construct is that of the node, that of an item that is a bare call, or an old one.
    rcases construct?_record hother with ⟨rfl, hconstruct⟩ | hother
    · exact hrule.shaped construct hconstruct
    · rw [Workspace.construct?, Workspace.finding] at hother
      rcases hitem with ⟨hfindings, -⟩ | ⟨only, bare, hbare, hfindings⟩
      · rw [hfindings] at hother
        exact hshaped other construct hother
      · rw [hfindings] at hother
        rcases construct?_record hother with ⟨rfl, hconstruct⟩ | hother
        · exact bareRule_shaped hlabels (itemRule_eq_some hbare).2.2 hconstruct
        · exact hshaped other construct hother

end Resolution

/-- After resolution every node has the shape that its construct needs. -/
theorem Program.resolved_shaped {cfg : Setting} {t : Tree} {w : Workspace}
    (h : Program.resolved cfg t = .ok w) {id : NodeId} {construct : Construct}
    (hconstruct : w.construct? id = some construct) : Resolution.Shaped t id construct := by
  obtain ⟨declared, -, hclassify, hfindings, hlabels, hannounced⟩ := Program.resolved_visits h
  refine Resolution.classifyAll_shaped hclassify
    (fun other hother => hannounced other (List.mem_reverse.mp hother)) hlabels
    (fun other found hother => ?_) id construct hconstruct
  -- Nothing has been found out about a node before.
  rw [Workspace.construct?, Workspace.finding, hfindings] at hother
  cases (Resolution.construct?_forTree other).symm.trans hother

end SexprAsm
