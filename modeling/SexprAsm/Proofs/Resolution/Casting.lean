import SexprAsm.Proofs.Catalog.DeclaredTypes
import SexprAsm.Proofs.Resolution.BottomUp
import SexprAsm.Proofs.Resolution.Renumbering
import SexprAsm.Proofs.Resolution.Resolvable

/-!
# A cast more

A tree with a cast around the array of an assignment (`Tree.Casting`) is resolved if and only if the
tree without the cast is (`Tree.Casting.resolvable_iff`). Nodes that correspond get the same meaning
(`Tree.Casting.finding_image`), variables get slots of the same kinds and events the same blocks.
The nodes are visited in another order, because those below the cast come a level later.
-/

namespace SexprAsm

open Resolution

/-- `t'` is `t` with a cast around the array that a node assigns. -/
structure Tree.Casting (t t' : Tree) where
  /-- The number in `t'` of a node of `t`. -/
  image : NodeId → NodeId
  /-- The assignment, the name of its variable, and the array. -/
  site : NodeId
  left : NodeId
  right : NodeId
  /-- The cast. -/
  cast : NodeId
  /-- The name of the type of the array. -/
  array : String
  root : image Tree.root = Tree.root
  injective : Function.Injective image
  lt_iff : ∀ id, image id < t'.size ↔ id < t.size
  apart : ∀ id, image id ≠ cast
  onto : ∀ id', id' ≠ cast → ∃ id, image id = id'
  tag : ∀ id, t'.tag (image id) = t.tag id
  children : ∀ id, id ≠ site → t'.children (image id) = (t.children id).map image
  visited : t.Visited site
  site_tag : t.tag site = .string Keyword.set
  site_children : t.children site = [left, right]
  right_tag : t.tag right = .string ("To" ++ array)
  image_site : t'.children (image site) = [image left, cast]
  cast_tag : t'.tag cast = .string ("!" ++ array)
  cast_children : t'.children cast = [image right]

/-! ## What the rule says of the three nodes

The assignment, the array and the cast are lists whose tags decide which rule gives them their
meaning. An assignment has the type of its variable, or else that of its right side (`rule_set`).
The array and the cast have no keyword for a tag (`not_keyword`), so they are calls by name
(`rule_of_word`): one that fills an array has the type that its name spells
(`callRule_arrayFill`), and so has the cast, if no operation takes its place (`callRule_cast`). -/

namespace Resolution

variable {cfg : Setting} {t : Tree} {id : NodeId} {tag : String} {type : TypeId}
  {slotType : String → Option TypeId} {typeOf : NodeId → Option TypeId}

theorem rule_set {first second : NodeId} (htag : t.tag id = .string Keyword.set)
    (hchildren : t.children id = [first, second]) : rule cfg t slotType typeOf id =
      ⟨some .set, some ((namedType? t slotType first <|> typeOf second).getD TypeTable.object)⟩ := by
  rw [rule_of_tagged (isLeaf_of_cons hchildren) htag, hchildren]
  unfold taggedRule
  -- It is no declaration, no inline assembly and no conditional, which are asked for first.
  rw [if_neg (by decide), if_neg (by decide), if_neg fun h => absurd h.1 (by decide)]
  rfl

/-- A list whose tag is no keyword is a call by name. -/
theorem rule_of_word (htag : t.tag id = .string tag) (hword : tag ∉ Keyword.all)
    (hleaf : (t.node id).isLeaf = false) :
    rule cfg t slotType typeOf id = callRule cfg typeOf tag (t.children id) := by
  simp only [Keyword.all, List.mem_cons, List.not_mem_nil, or_false, not_or] at hword
  obtain ⟨hdeclare, hget, hset, hconditional, hloop, hevent, hasm, htypeOf⟩ := hword
  rw [rule_of_tagged hleaf htag]
  unfold taggedRule
  rw [if_neg hdeclare, if_neg hasm, if_neg fun h => hconditional h.1]
  split
  · rw [if_neg hget, if_neg htypeOf]
  · rw [if_neg hset, if_neg hloop, if_neg hevent]
  · rfl

/-- A call by name that fills an array has the type that follows `To`. -/
theorem callRule_arrayFill {children : List NodeId}
    (h : (callRule cfg typeOf tag children).construct = some (.arrayFill type)) :
    (callRule cfg typeOf tag children).type = some type ∧
      (Text.dropLead? "To" tag).bind cfg.catalog.types.lookup = some type := by
  unfold callRule at h ⊢
  dsimp only at h ⊢
  split at h
  next => cases h
  next => cases h
  next found _ _ harray =>
    obtain rfl : found = type := by simpa using h
    obtain ⟨name, hname, harray⟩ := Option.bind_eq_some_iff.mp harray
    obtain ⟨_, -, harray⟩ := Option.bind_eq_some_iff.mp harray
    obtain ⟨other, hlookup, hif⟩ := Option.bind_eq_some_iff.mp harray
    split at hif
    · obtain rfl := Option.some.inj hif
      exact ⟨rfl, by rw [hname, Option.bind_some, hlookup]⟩
    · cases hif
  next => cases h

/-- A call by name of one argument is a cast, if there is no operation of that name. -/
theorem callRule_cast {array : String} {child : NodeId}
    (hlookup : cfg.catalog.types.lookup array = some type)
    (hno : ∀ type, cfg.catalog.resolveOverload ("!" ++ array) [type] = none) :
    callRule cfg typeOf ("!" ++ array) [child] = ⟨some (.cast type), some type⟩ := by
  have hoverload : ([child].mapM typeOf).bind (cfg.catalog.resolveOverload ("!" ++ array)) = none := by
    cases htype : typeOf child with
    | none => simp [htype]
    | some type => simp [htype, hno]
  unfold callRule
  dsimp only
  rw [hoverload, if_pos List.length_singleton, Text.dropLead?_append, Option.bind_some, hlookup]

theorem filter_bind_eq_none {α β : Type} {a : α} {p : α → Bool} {g : α → Option β} (h : g a = none) :
    ((some a).filter p).bind g = none := by
  cases hp : p a with
  | true => rwa [Option.filter_some_pos hp]
  | false => rw [Option.filter_some_neg hp, Option.bind_none]

/-- A tag that begins with another letter than the keywords is none. -/
theorem not_keyword {lead rest : String}
    (h : ∀ word ∈ Keyword.all, word.toList.head? ≠ lead.toList.head?) (hlead : lead.toList ≠ []) :
    lead ++ rest ∉ Keyword.all := by
  intro hmem
  refine h _ hmem ?_
  rw [String.toList_append, List.head?_append_of_ne_nil _ hlead]

end Resolution

namespace Tree.Casting

variable {t t' : Tree} (C : t.Casting t') {cfg : Setting} {id : NodeId} {name : String}
  {type : TypeId}

include C

/-! ## Nodes that correspond

A node and its image have the same tag, as many children, and the same first child: at the
assignment only the second child is another one, which no question about leaves, events or names
looks at. So the lemmas below hold of all nodes, the assignment not excepted. The cast itself is
none of the things that are asked for, for its tag begins with an exclamation mark (`cast_ne`). -/

theorem cast_ne {word : String} (h : word.toList.head? ≠ some '!') : t'.tag C.cast ≠ .string word := by
  rw [C.cast_tag]
  intro heq
  refine h ?_
  rw [← Value.string.inj heq, String.toList_append]
  rfl

theorem ne_site {word : String} (htag : t.tag id = .string word) (h : word ≠ Keyword.set) :
    id ≠ C.site := by
  rintro rfl
  exact h (Value.string.inj (htag.symm.trans C.site_tag))

theorem length_children (id : NodeId) :
    (t'.children (C.image id)).length = (t.children id).length := by
  by_cases hid : id = C.site
  · rw [hid, C.image_site, C.site_children]
    rfl
  · rw [C.children id hid, List.length_map]

/-- The first child is another node in no case. -/
theorem head?_children (id : NodeId) :
    (t'.children (C.image id)).head? = (t.children id).head?.map C.image := by
  by_cases hid : id = C.site
  · rw [hid, C.image_site, C.site_children]
    rfl
  · rw [C.children id hid, List.head?_map]

theorem isLeaf (id : NodeId) : (t'.node (C.image id)).isLeaf = (t.node id).isLeaf := by
  have hlength := C.length_children id
  unfold Node.isLeaf
  rw [Bool.eq_iff_iff, List.isEmpty_iff, List.isEmpty_iff, ← List.length_eq_zero_iff,
    ← List.length_eq_zero_iff]
  exact iff_of_eq (congrArg (· = 0) hlength)

theorem named_iff : t'.Named (C.image id) name ↔ t.Named id name := by
  rw [Tree.Named, Tree.Named, C.tag]

theorem isEvent (id : NodeId) : t'.isEvent (C.image id) = t.isEvent id := by
  rw [Tree.isEvent, Tree.isEvent, C.tag, C.length_children]

theorem eventLabel? (id : NodeId) : t'.eventLabel? (C.image id) = t.eventLabel? id := by
  rw [Tree.eventLabel?, Tree.eventLabel?, C.isEvent, ← List.head?_eq_getElem?,
    ← List.head?_eq_getElem?, C.head?_children]
  cases (t.children id).head? with
  | none => rfl
  | some first => simp only [Option.map_some, Option.bind_some, C.tag]

theorem isEvent_cast : t'.isEvent C.cast = false :=
  Bool.eq_false_iff.mpr fun h => C.cast_ne (by decide) (Tree.isEvent_iff.mp h).1

theorem eventLabel?_cast : t'.eventLabel? C.cast = none :=
  Tree.eventLabel?_eq_none (by simp [C.isEvent_cast])

/-- Every node is the cast, or corresponds to one. -/
theorem cases_node (id' : NodeId) : id' = C.cast ∨ ∃ id, id' = C.image id := by
  by_cases h : id' = C.cast
  · exact Or.inl h
  · obtain ⟨id, hid⟩ := C.onto id' h
    exact Or.inr ⟨id, hid.symm⟩

theorem pointerLike_iff : t'.PointerLike name ↔ t.PointerLike name := by
  constructor
  · rintro ⟨block, label, hlabel, hlead⟩
    rcases C.cases_node block with rfl | ⟨id, rfl⟩
    · rw [C.eventLabel?_cast] at hlabel
      cases hlabel
    · exact ⟨id, label, (C.eventLabel? id).symm.trans hlabel, hlead⟩
  · rintro ⟨block, label, hlabel, hlead⟩
    exact ⟨C.image block, label, (C.eventLabel? block).trans hlabel, hlead⟩

/-! ## Visits

A node is visited just if its image is, and the cast is visited, too (`visited_image`,
`cases_visited`). Both are inductions on the way down from the root, where only the steps at the
assignment and at the cast are not those of the other tree. What is to be shown of all visited
nodes is then shown of the cast, and of the nodes of the tree without it (`forall_visited_iff`). -/

theorem isSealed (id : NodeId) : t'.isSealed (C.image id) = t.isSealed id := by
  rw [Tree.isSealed, Tree.isSealed, C.tag]

theorem openChildren (h : id ≠ C.site) :
    t'.openChildren (C.image id) = (t.openChildren id).map C.image := by
  rw [Tree.openChildren, Tree.openChildren, C.isSealed, C.children id h]
  split <;> rfl

theorem openChildren_site : t.openChildren C.site = [C.left, C.right] := by
  rw [Tree.openChildren, if_neg, C.site_children]
  rw [Tree.isSealed, C.site_tag]
  decide

theorem openChildren_image_site : t'.openChildren (C.image C.site) = [C.image C.left, C.cast] := by
  rw [Tree.openChildren, if_neg, C.image_site]
  rw [C.isSealed, Tree.isSealed, C.site_tag]
  decide

theorem openChildren_cast : t'.openChildren C.cast = [C.image C.right] := by
  rw [Tree.openChildren, if_neg, C.cast_children]
  intro hsealed
  rw [Tree.isSealed] at hsealed
  simp only [C.cast_tag, Value.text?, Option.any_some, List.mem_cons, List.not_mem_nil, or_false,
    decide_eq_true_eq] at hsealed
  rcases hsealed with h | h | h | h <;>
    exact C.cast_ne (by decide) (C.cast_tag.trans (congrArg Value.string h))

theorem visited_image (h : t.Visited id) : t'.Visited (C.image id) := by
  induction h with
  | root =>
    rw [C.root]
    exact .root
  | @child q c _ hc ih =>
    by_cases hq : q = C.site
    · subst hq
      rw [C.openChildren_site] at hc
      -- The array is reached through the cast.
      have hcast : t'.Visited C.cast := .child ih (by rw [C.openChildren_image_site]; simp)
      rcases List.mem_pair.mp hc with rfl | rfl
      · exact .child ih (by rw [C.openChildren_image_site]; simp)
      · exact .child hcast (by rw [C.openChildren_cast]; simp)
    · exact .child ih (by rw [C.openChildren hq]; exact List.mem_map_of_mem hc)

theorem visited_cast : t'.Visited C.cast :=
  .child (C.visited_image C.visited) (by rw [C.openChildren_image_site]; simp)

theorem cases_visited {id' : NodeId} (h : t'.Visited id') :
    id' = C.cast ∨ ∃ id, id' = C.image id ∧ t.Visited id := by
  induction h with
  | root => exact Or.inr ⟨Tree.root, C.root.symm, .root⟩
  | @child q c hq hc ih =>
    rcases ih with rfl | ⟨id, rfl, hid⟩
    · rw [C.openChildren_cast, List.mem_singleton] at hc
      exact Or.inr ⟨C.right, hc, .child C.visited (by rw [C.openChildren_site]; simp)⟩
    · by_cases hsite : id = C.site
      · subst hsite
        rw [C.openChildren_image_site] at hc
        rcases List.mem_pair.mp hc with rfl | rfl
        · exact Or.inr ⟨C.left, rfl, .child hid (by rw [C.openChildren_site]; simp)⟩
        · exact Or.inl rfl
      · rw [C.openChildren hsite] at hc
        obtain ⟨c, hopen, rfl⟩ := List.mem_map.mp hc
        exact Or.inr ⟨c, rfl, .child hid hopen⟩

theorem visited_iff : t'.Visited (C.image id) ↔ t.Visited id := by
  refine ⟨fun h => ?_, C.visited_image⟩
  rcases C.cases_visited h with h | ⟨other, hother, h⟩
  · exact absurd h (C.apart id)
  · rwa [C.injective hother]

/-- What holds of all visited nodes, once it holds of the cast. -/
theorem forall_visited_iff {P : NodeId → Prop} (hcast : P C.cast) :
    (∀ id', t'.Visited id' → P id') ↔ ∀ id, t.Visited id → P (C.image id) := by
  refine ⟨fun h id hid => h _ (C.visited_image hid), fun h id' hid' => ?_⟩
  rcases C.cases_visited hid' with rfl | ⟨id, rfl, hid⟩
  · exact hcast
  · exact h id hid

/-! ## What resolution asks for

Whether a tree is resolved is decided by what its visited nodes declare and ask for
(`Resolvable`). The cast declares nothing, asks for nothing, and cannot fail (`not_makes_cast`,
`asked?_cast`, `sensible_cast`). All other nodes declare and ask for the same as before
(`makes_iff`, `asks_iff`, `sensible_iff`), so both trees are resolved or none (`resolvable_iff`),
with slots of the same kinds (`kind?_eq`). -/

theorem isThis (id : NodeId) : Resolution.isThis t' (C.image id) = Resolution.isThis t id := by
  by_cases hid : id = C.site
  · rw [hid, Resolution.isThis, Resolution.isThis, C.image_site, C.site_children]
  · exact isThis_renumber C.tag (C.children id hid)

theorem lastValue (hid : id ≠ C.site) (name : String) (attributes : Attributes) :
    lastValue t' (C.image id) name attributes = lastValue t id name attributes := by
  rw [Resolution.lastValue, Resolution.lastValue, C.children id hid, ← List.map_drop,
    List.getLast?_map]
  cases ((t.children id).drop 1).getLast? with
  | none => rfl
  | some last => simp only [Option.map_some, defaultValue, C.isLeaf, C.tag, C.isThis]

theorem declares_iff : t'.Declares (C.image id) name ↔ t.Declares id name := by
  have hnamed : (t.node id).isLeaf = false →
      (t'.Named ((t'.children (C.image id)).headD 0) name ↔
        t.Named ((t.children id).headD 0) name) := by
    intro hleaf
    have hhead := C.head?_children id
    cases hchildren : t.children id with
    | nil => simp [Node.isLeaf, show (t.node id).children = [] from hchildren] at hleaf
    | cons first rest =>
      rw [hchildren, List.head?_cons, Option.map_some] at hhead
      rw [List.headD_eq_head?_getD, hhead, Option.getD_some, List.headD_cons, C.named_iff]
  rw [Tree.Declares, Tree.Declares, C.tag, C.isLeaf]
  refine and_congr_right fun _ => and_congr_right hnamed

theorem makes_iff : Makes cfg t' (C.image id) name type ↔ Makes cfg t id name type := by
  unfold Makes
  rw [C.declares_iff]
  refine and_congr_right fun hdeclares => ?_
  have hid := C.ne_site hdeclares.1 (by decide)
  simp only [C.children id hid, C.lastValue hid, ← List.map_drop, ← List.map_dropLast,
    modifiers_renumber C.tag]

theorem not_makes_cast : ¬ Makes cfg t' C.cast name type :=
  fun h => C.cast_ne (by decide) h.1.1

theorem asked? (id : NodeId) : t'.asked? (C.image id) = (t.asked? id).map C.image := by
  unfold Tree.asked?
  by_cases hid : id = C.site
  · rw [hid, C.image_site, C.site_children]
    simp only [C.tag]
    split <;> rfl
  · rw [C.children id hid, C.tag]
    -- Only a list of one or two children asks for one, the first.
    rcases t.children id with _ | ⟨first, _ | ⟨second, _ | ⟨third, rest⟩⟩⟩
    · rfl
    · simp only [List.map_cons, List.map_nil]
      split <;> rfl
    · simp only [List.map_cons, List.map_nil]
      split <;> rfl
    · rfl

theorem asked?_cast : t'.asked? C.cast = none :=
  asked?_eq_none (fun _ _ => C.cast_ne (by decide)) fun _ _ _ => C.cast_ne (by decide)

theorem asks_iff : t'.Asks (C.image id) name ↔ t.Asks id name := by
  unfold Tree.Asks
  rw [C.asked?]
  constructor
  · rintro ⟨child, hchild, hname⟩
    obtain ⟨child, hasked, rfl⟩ := Option.map_eq_some_iff.mp hchild
    exact ⟨child, hasked, C.named_iff.mp hname⟩
  · rintro ⟨child, hchild, hname⟩
    exact ⟨C.image child, by rw [hchild, Option.map_some], C.named_iff.mpr hname⟩

theorem sensible_cast : Sensible cfg t' C.cast := by
  refine ⟨fun htag => absurd htag (C.cast_ne (by decide)), fun hevent => ?_, fun child hchild => ?_,
    fun child htag => absurd htag (C.cast_ne (by decide))⟩
  · rw [C.isEvent_cast] at hevent
    cases hevent
  · rw [C.asked?_cast] at hchild
    cases hchild

theorem sensible_iff : Sensible cfg t' (C.image id) ↔ Sensible cfg t id := by
  constructor
  · intro h
    -- Declarations, labels of events, names that are asked for, and names of types.
    refine ⟨fun htag hleaf => ?_, fun hevent => ?_, fun child hchild => ?_,
      fun child htag hchildren => ?_⟩
    · obtain ⟨name, type, hmakes⟩ :=
        h.declares ((C.tag id).trans htag) ((C.isLeaf id).trans hleaf)
      exact ⟨name, type, C.makes_iff.mp hmakes⟩
    · obtain ⟨label, hlabel, hempty⟩ := h.labels ((C.isEvent id).trans hevent)
      exact ⟨label, (C.eventLabel? id).symm.trans hlabel, hempty⟩
    · obtain ⟨name, hname⟩ := h.asks (C.image child) (by rw [C.asked?, hchild, Option.map_some])
      exact ⟨name, C.named_iff.mp hname⟩
    · obtain ⟨name, type, hname, htype⟩ := h.types (C.image child) ((C.tag id).trans htag)
        (by rw [C.children id (C.ne_site htag (by decide)), hchildren]; rfl)
      exact ⟨name, type, C.named_iff.mp hname, htype⟩
  · intro h
    refine ⟨fun htag hleaf => ?_, fun hevent => ?_, fun child hchild => ?_,
      fun child htag hchildren => ?_⟩
    · obtain ⟨name, type, hmakes⟩ :=
        h.declares ((C.tag id).symm.trans htag) ((C.isLeaf id).symm.trans hleaf)
      exact ⟨name, type, C.makes_iff.mpr hmakes⟩
    · obtain ⟨label, hlabel, hempty⟩ := h.labels ((C.isEvent id).symm.trans hevent)
      exact ⟨label, (C.eventLabel? id).trans hlabel, hempty⟩
    · rw [C.asked?] at hchild
      obtain ⟨child, hasked, rfl⟩ := Option.map_eq_some_iff.mp hchild
      obtain ⟨name, hname⟩ := h.asks child hasked
      exact ⟨name, C.named_iff.mpr hname⟩
    · rw [C.tag] at htag
      rw [C.children id (C.ne_site htag (by decide))] at hchildren
      obtain ⟨child, hchild, rfl⟩ := List.map_eq_singleton_iff.mp hchildren
      obtain ⟨name, type, hname, htype⟩ := h.types child htag hchild
      exact ⟨name, type, C.named_iff.mpr hname, htype⟩

theorem exists_makes_iff : (∃ d type, t'.Visited d ∧ Makes cfg t' d name type) ↔
    ∃ d type, t.Visited d ∧ Makes cfg t d name type := by
  constructor
  · rintro ⟨d, type, hd, hmakes⟩
    rcases C.cases_visited hd with rfl | ⟨id, rfl, hid⟩
    · exact absurd hmakes C.not_makes_cast
    · exact ⟨id, type, hid, C.makes_iff.mp hmakes⟩
  · rintro ⟨d, type, hd, hmakes⟩
    exact ⟨C.image d, type, C.visited_image hd, C.makes_iff.mpr hmakes⟩

/-- What resolution asks for is the same with the cast. -/
theorem resolvable_iff : Resolvable cfg t' ↔ Resolvable cfg t := by
  constructor
  · intro h
    refine ⟨fun id hid => C.sensible_iff.mp (h.sensible _ (C.visited_image hid)),
      fun id id' name type type' hid hid' hmakes hmakes' => ?_, fun id name hid htag hasks => ?_⟩
    · exact h.agree _ _ name type type' (C.visited_image hid) (C.visited_image hid')
        (C.makes_iff.mpr hmakes) (C.makes_iff.mpr hmakes')
    · exact (h.reads _ name (C.visited_image hid) ((C.tag id).trans htag)
        (C.asks_iff.mpr hasks)).imp_left C.exists_makes_iff.mp
  · -- A visited node of the tree with the cast is the cast, which neither declares nor reads, or an
    -- image.
    intro h
    refine ⟨(C.forall_visited_iff C.sensible_cast).mpr fun id hid =>
        C.sensible_iff.mpr (h.sensible id hid),
      fun id id' name type type' hid hid' hmakes hmakes' => ?_, fun id name hid htag hasks => ?_⟩
    · rcases C.cases_visited hid with rfl | ⟨id, rfl, hvisited⟩
      · exact absurd hmakes C.not_makes_cast
      rcases C.cases_visited hid' with rfl | ⟨id', rfl, hvisited'⟩
      · exact absurd hmakes' C.not_makes_cast
      exact h.agree id id' name type type' hvisited hvisited' (C.makes_iff.mp hmakes)
        (C.makes_iff.mp hmakes')
    · rcases C.cases_visited hid with rfl | ⟨id, rfl, hvisited⟩
      · exact absurd htag (C.cast_ne (by decide))
      · exact (h.reads id name hvisited ((C.tag id).symm.trans htag) (C.asks_iff.mp hasks)).imp_left
          C.exists_makes_iff.mpr

/-- Nothing of the tree with the cast is named like the slot for a return address. -/
theorem plain {c : Catalog} (h : Plain c t) : Plain c t' := by
  refine ⟨fun id' name hname => ?_, fun name hname => ?_⟩
  · rw [C.pointerLike_iff]
    rcases C.cases_node id' with rfl | ⟨id, rfl⟩
    · rw [C.cast_tag] at hname
      obtain rfl := Option.some.inj hname
      rintro ⟨block, label, -, hlead⟩
      -- A cast does not begin with underscores.
      simp only [Workspace.pointerLead, String.toList_append] at hlead
      obtain ⟨rest, hrest⟩ := hlead
      exact absurd (congrArg List.head? hrest) (by simp)
    · rw [C.tag] at hname
      exact h.texts id name hname
  · rw [C.pointerLike_iff]
    exact h.predefined name hname

/-- Slots that are not for return addresses have the same kinds. -/
theorem kind?_eq {heap heap' : Heap} (h : Resolution.Settled cfg t heap)
    (h' : Resolution.Settled cfg t' heap') (hname : ¬ t.PointerLike name) :
    heap'.kind? name = heap.kind? name := by
  -- The name is declared somewhere, or only asked for, or neither: in each of these cases its kind
  -- after resolution is known, and both trees are in the same case.
  by_cases hmade : ∃ d type, t.Visited d ∧ Makes cfg t d name type
  · obtain ⟨d, type, hd, hmakes⟩ := hmade
    rw [h.declared d name type hd hmakes,
      h'.declared _ name type (C.visited_image hd) (C.makes_iff.mpr hmakes)]
  have hnone : ∀ d type, t.Visited d → ¬ Makes cfg t d name type :=
    fun d type hd hmakes => hmade ⟨d, type, hd, hmakes⟩
  have hnone' : ∀ d type, t'.Visited d → ¬ Makes cfg t' d name type :=
    fun d type hd hmakes => hmade (C.exists_makes_iff.mp ⟨d, type, hd, hmakes⟩)
  by_cases hasked : ∃ id, t.Visited id ∧ t.Asks id name
  · obtain ⟨id, hid, hasks⟩ := hasked
    rw [h.asked id name hid hasks hnone,
      h'.asked _ name (C.visited_image hid) (C.asks_iff.mpr hasks) hnone']
  · rw [h.others name hname (fun id hid hasks => hasked ⟨id, hid, hasks⟩) hnone,
      h'.others name (C.pointerLike_iff.not.mpr hname) ?_ hnone']
    refine (C.forall_visited_iff (Tree.not_asks_of_none C.asked?_cast name)).mpr fun id hid => ?_
    rw [C.asks_iff]
    exact fun hasks => hasked ⟨id, hid, hasks⟩

/-! ## Meanings

The rule looks at a node, at the types of its children and at those of variables, so away from
the assignment it says the same of a node and of its image once their children have the same
types (`rule_image`). What a parent makes of an item of its own is looked at apart, as neither
the assignment nor the cast makes anything of theirs (`itemRule_site`, `itemRule_image_site`,
`itemRule_cast`). -/

/-- The rule gives nodes that correspond the same meaning, if their children have the same types. -/
theorem rule_image (hid : id ≠ C.site) {slotType slotType' : String → Option TypeId}
    {typeOf typeOf' : NodeId → Option TypeId}
    (hslots : ∀ c name, (t.tag c).text? = some name → slotType' name = slotType name)
    (htypes : ∀ c ∈ t.children id, typeOf' (C.image c) = typeOf c) :
    rule cfg t' slotType' typeOf' (C.image id) = rule cfg t slotType typeOf id :=
  rule_map (C.children id hid) C.tag hslots htypes

theorem itemRule_image (isLabel : String → Bool) {p c : NodeId} (hp : p ≠ C.site) :
    itemRule cfg t' isLabel (C.image p) (C.image c) = itemRule cfg t isLabel p c := by
  have hchildren : t'.children (C.image p) = [C.image c] ↔ t.children p = [c] := by
    rw [C.children p hp, ← List.map_singleton]
    exact (List.map_injective_iff.mpr C.injective).eq_iff
  rw [itemRule, itemRule, C.tag, bareRule, bareRule, C.tag]
  simp only [hchildren]

theorem itemRule_site (isLabel : String → Bool) (c : NodeId) :
    itemRule cfg t isLabel C.site c = none :=
  if_neg fun h => by rw [C.site_tag] at h; cases h.1

theorem itemRule_image_site (isLabel : String → Bool) (c : NodeId) :
    itemRule cfg t' isLabel (C.image C.site) c = none :=
  if_neg fun h => by rw [C.tag, C.site_tag] at h; cases h.1

theorem itemRule_cast (isLabel : String → Bool) (c : NodeId) :
    itemRule cfg t' isLabel C.cast c = none :=
  if_neg fun h => by rw [C.cast_tag] at h; cases h.1

/-! ## What is recorded

The cast means a cast to the type of the array (`meaning_right`, `meaning_cast`). With that, the
assignment has a right side of the same type in both trees, and all nodes mean the same, from the
leaves up (`meaning_image`). What is recorded of a node depends on its parent, too. The parent of
an image is the image of the parent, but for the array, whose parent is the cast
(`parent?_image`). -/

variable {slotType slotType' : String → Option TypeId} {isLabel : String → Bool}
  (ht : t.Linked) (ht' : t'.Linked)

theorem meaning_right (h : (meaning cfg ht slotType isLabel C.right).construct =
    some (.arrayFill type)) : (meaning cfg ht slotType isLabel C.right).type = some type ∧
      cfg.catalog.types.lookup C.array = some type := by
  have hleaf : (t.node C.right).isLeaf = false := by
    refine Bool.eq_false_iff.mpr fun hleaf => ?_
    rw [meaning, rule, if_pos hleaf] at h
    cases h
  rw [meaning, rule_of_word C.right_tag (not_keyword (by decide) (by decide)) hleaf] at h ⊢
  obtain ⟨htype, hlookup⟩ := callRule_arrayFill h
  rw [Text.dropLead?_append, Option.bind_some] at hlookup
  exact ⟨htype, hlookup⟩

theorem meaning_cast (hlookup : cfg.catalog.types.lookup C.array = some type)
    (hno : ∀ type, cfg.catalog.resolveOverload ("!" ++ C.array) [type] = none) :
    meaning cfg ht' slotType isLabel C.cast = ⟨some (.cast type), some type⟩ := by
  rw [meaning, rule_of_word C.cast_tag (not_keyword (by decide) (by decide))
    (isLeaf_of_cons C.cast_children), C.cast_children, callRule_cast hlookup hno]

/-- Nodes that correspond mean the same, if the cast has the type of the array. -/
theorem meaning_image (hslots : ∀ c name, (t.tag c).text? = some name → slotType' name = slotType name)
    (hvalue : (meaning cfg ht' slotType' isLabel C.cast).type =
      (meaning cfg ht slotType isLabel C.right).type) (id : NodeId) :
    meaning cfg ht' slotType' isLabel (C.image id) = meaning cfg ht slotType isLabel id := by
  -- The induction is on the weight, so on the nodes below first.
  induction hweight : t.weight id using Nat.strong_induction_on generalizing id with
  | _ n ih =>
    subst hweight
    rw [meaning, meaning]
    by_cases hid : id = C.site
    · -- The left side is the same name, and the right side has the same type.
      subst hid
      have hleft : namedType? t' slotType' (C.image C.left) = namedType? t slotType C.left := by
        rw [namedType?, namedType?, C.tag]
        cases hname : (t.tag C.left).text? with
        | none => rfl
        | some name => exact hslots C.left name hname
      rw [rule_set ((C.tag _).trans C.site_tag) C.image_site, rule_set C.site_tag C.site_children,
        hleft, dif_pos (by rw [C.openChildren_image_site]; simp),
        dif_pos (by rw [C.openChildren_site]; simp), C.itemRule_image_site, C.itemRule_site,
        Option.getD_none, Option.getD_none, hvalue]
    · -- Children that are not visited have no type in either tree.
      refine C.rule_image hid hslots fun c hc => ?_
      have hopen : C.image c ∈ t'.openChildren (C.image id) ↔ c ∈ t.openChildren id := by
        rw [C.openChildren hid]
        exact List.mem_map_of_injective C.injective
      by_cases hmem : c ∈ t.openChildren id
      · rw [dif_pos hmem, dif_pos (hopen.mpr hmem), C.itemRule_image isLabel hid,
          ih _ (ht.weight_lt hc) c rfl]
      · rw [dif_neg hmem, dif_neg fun h => hmem (hopen.mp h)]

/-- The parent of a node, but that of the array is the cast. -/
theorem parent?_image (ht : t.Linked) (ht' : t'.Linked) (h : id ≠ C.right) :
    t'.parent? (C.image id) = (t.parent? id).map C.image := by
  cases hparent : t.parent? id with
  | some p =>
    refine (ht'.mem_iff _ _).mp ?_
    have hmem := (ht.mem_iff p id).mpr hparent
    by_cases hp : p = C.site
    · rw [hp, C.site_children] at hmem
      obtain rfl := (List.mem_pair.mp hmem).resolve_right h
      rw [hp, C.image_site]
      exact List.mem_cons_self
    · rw [C.children p hp]
      exact List.mem_map_of_mem hmem
  | none =>
    -- A parent of the image would be the cast, the assignment, or the image of a parent.
    have hnone : ∀ p, id ∉ t.children p := fun p hmem => by
      rw [(ht.mem_iff p id).mp hmem] at hparent
      cases hparent
    refine Option.eq_none_iff_forall_ne_some.mpr fun p' hp' => ?_
    have hmem := (ht'.mem_iff p' _).mpr hp'
    rcases C.cases_node p' with rfl | ⟨p, rfl⟩
    · rw [C.cast_children, List.mem_singleton] at hmem
      exact h (C.injective hmem)
    · by_cases hp : p = C.site
      · rw [hp, C.image_site] at hmem
        rcases List.mem_pair.mp hmem with hleft | hcast
        · exact hnone C.site (by rw [C.site_children, C.injective hleft]; simp)
        · exact C.apart id hcast
      · rw [C.children p hp, List.mem_map_of_injective C.injective] at hmem
        exact hnone p hmem

theorem parent?_right (ht : t.Linked) : t.parent? C.right = some C.site :=
  (ht.mem_iff _ _).mp (by rw [C.site_children]; simp)

theorem parent?_image_right (ht' : t'.Linked) : t'.parent? (C.image C.right) = some C.cast :=
  (ht'.mem_iff _ _).mp (by rw [C.cast_children]; simp)

theorem parent?_cast (ht' : t'.Linked) : t'.parent? C.cast = some (C.image C.site) :=
  (ht'.mem_iff _ _).mp (by rw [C.image_site]; simp)

theorem root_lt (hroot : Tree.root < t.size) : Tree.root < t'.size := by
  rw [← C.root]
  exact (C.lt_iff Tree.root).mpr hroot

theorem mem_visits_image (ht : t.Linked) (ht' : t'.Linked) (hroot : Tree.root < t.size) :
    C.image id ∈ t'.visits ↔ id ∈ t.visits := by
  rw [ht'.mem_visits (C.root_lt hroot), ht.mem_visits hroot, C.visited_iff]

/-- What is recorded of nodes that correspond, if they mean the same. -/
theorem recorded_image (hroot : Tree.root < t.size)
    (h : meaning cfg ht' slotType' isLabel (C.image id) = meaning cfg ht slotType isLabel id) :
    recorded cfg ht' slotType' isLabel t'.visits (C.image id) =
      recorded cfg ht slotType isLabel t.visits id := by
  have hitem : ((t'.parent? (C.image id)).filter (· ∈ t'.visits)).bind
        (itemRule cfg t' isLabel · (C.image id)) =
      ((t.parent? id).filter (· ∈ t.visits)).bind (itemRule cfg t isLabel · id) := by
    by_cases hright : id = C.right
    · -- Neither the assignment nor the cast makes a call of the array.
      subst hright
      rw [C.parent?_image_right ht', C.parent?_right ht]
      refine Eq.trans (b := none) (filter_bind_eq_none ?_) (Eq.symm (filter_bind_eq_none ?_))
      · exact C.itemRule_cast isLabel _
      · exact C.itemRule_site isLabel _
    · rw [C.parent?_image ht ht' hright]
      cases hparent : t.parent? id with
      | none => rfl
      | some p =>
        -- The parent of the image is the image of the parent, and is visited where that is.
        simp only [Option.map_some, Option.filter, C.mem_visits_image ht ht' hroot]
        split
        next =>
          rw [Option.bind_some, Option.bind_some]
          by_cases hp : p = C.site
          · rw [hp, C.itemRule_image_site, C.itemRule_site]
          · exact C.itemRule_image isLabel hp
        next => rfl
  rw [recorded, recorded, hitem, h]
  simp only [C.mem_visits_image ht ht' hroot]

theorem recorded_cast (hroot : Tree.root < t.size) :
    recorded cfg ht' slotType' isLabel t'.visits C.cast =
      meaning cfg ht' slotType' isLabel C.cast := by
  have hmem := (ht'.mem_visits (C.root_lt hroot)).mpr C.visited_cast
  have hnone : ((t'.parent? C.cast).filter (· ∈ t'.visits)).bind
      (itemRule cfg t' isLabel · C.cast) = none := by
    rw [C.parent?_cast ht']
    exact filter_bind_eq_none (C.itemRule_image_site isLabel _)
  rw [recorded, if_pos hmem, hnone, Option.getD_none]

theorem recorded_right (hroot : Tree.root < t.size) :
    recorded cfg ht slotType isLabel t.visits C.right =
      meaning cfg ht slotType isLabel C.right := by
  have hmem : C.right ∈ t.visits :=
    (ht.mem_visits hroot).mpr (.child C.visited (by rw [C.openChildren_site]; simp))
  have hnone : ((t.parent? C.right).filter (· ∈ t.visits)).bind
      (itemRule cfg t isLabel · C.right) = none := by
    rw [C.parent?_right ht]
    exact filter_bind_eq_none (C.itemRule_site isLabel _)
  rw [recorded, if_pos hmem, hnone, Option.getD_none]

/-! ## After resolution

The two trees are visited in different orders, but what resolution leaves does not depend on the
order: the events are those of the nodes that are visited (`contains_eq`), with as many blocks as
nodes declare them (`blocksOf_eq`). So the lemmas above apply to the workspaces that resolution
returns, and give their findings (`findings_eq`). -/

variable {w w' : Workspace}

/-- The same nodes are visited, and the cast. -/
theorem perm_visits (ht : t.Linked) (ht' : t'.Linked) (hroot : Tree.root < t.size) :
    t'.visits.Perm (C.cast :: t.visits.map C.image) := by
  have hnodup : (C.cast :: t.visits.map C.image).Nodup := by
    refine List.nodup_cons.mpr ⟨fun hmem => ?_, ht.nodup_visits.map C.injective⟩
    obtain ⟨id, -, hid⟩ := List.mem_map.mp hmem
    exact C.apart id hid
  -- Both lists are without duplicates, so it is enough that they have the same members.
  refine (List.perm_ext_iff_of_nodup ht'.nodup_visits hnodup).mpr fun id' => ?_
  rcases C.cases_node id' with rfl | ⟨id, rfl⟩
  · exact iff_of_true ((ht'.mem_visits (C.root_lt hroot)).mpr C.visited_cast) List.mem_cons_self
  · rw [C.mem_visits_image ht ht' hroot, List.mem_cons, List.mem_map_of_injective C.injective]
    exact (or_iff_right (C.apart id)).symm

theorem contains_eq (ht : t.Linked) (ht' : t'.Linked) (hroot : Tree.root < t.size)
    (h : Program.resolved cfg t = .ok w) (h' : Program.resolved cfg t' = .ok w') (label : String) :
    w'.entryPoints.contains label = w.entryPoints.contains label := by
  rw [Bool.eq_iff_iff, Program.resolved_contains_iff h, Program.resolved_contains_iff h']
  constructor
  · rintro ⟨block, hblock, hlabel⟩
    rcases C.cases_node block with rfl | ⟨id, rfl⟩
    · rw [C.eventLabel?_cast] at hlabel
      cases hlabel
    · exact ⟨id, (C.mem_visits_image ht ht' hroot).mp hblock, (C.eventLabel? id).symm.trans hlabel⟩
  · rintro ⟨block, hblock, hlabel⟩
    exact ⟨C.image block, (C.mem_visits_image ht ht' hroot).mpr hblock,
      (C.eventLabel? block).trans hlabel⟩

theorem blocksOf_eq (ht : t.Linked) (ht' : t'.Linked) (hroot : Tree.root < t.size)
    (h : Program.resolved cfg t = .ok w) (h' : Program.resolved cfg t' = .ok w') (label : String) :
    w'.blocksOf label = w.blocksOf label := by
  rw [Program.resolved_blocksOf h, Program.resolved_blocksOf h',
    (C.perm_visits ht ht' hroot).countP_eq, List.countP_cons, C.eventLabel?_cast, List.countP_map]
  refine (Nat.add_zero _).trans (congrArg (List.countP · t.visits) (funext fun id => ?_))
  rw [Function.comp_apply, C.eventLabel?]

/-- Nodes that correspond are given the same meaning, and the cast that of a cast. -/
theorem findings_eq (ht : t.Linked) (ht' : t'.Linked) (hroot : Tree.root < t.size)
    (hsound : cfg.catalog.types.Sound) (hplain : Plain cfg.catalog t)
    (h : Program.resolved cfg t = .ok w) (h' : Program.resolved cfg t' = .ok w')
    (hfill : w.construct? C.right = some (.arrayFill type))
    (hno : ∀ type, cfg.catalog.resolveOverload ("!" ++ C.array) [type] = none) :
    (∀ id, w'.finding (C.image id) = w.finding id) ∧
      w'.construct? C.cast = some (.cast type) ∧ w.nodeType? C.right = some type := by
  obtain ⟨-, hsettled⟩ := Program.resolved_settled hsound ht hroot hplain h
  obtain ⟨-, hsettled'⟩ :=
    Program.resolved_settled hsound ht' (C.root_lt hroot) (C.plain hplain) h'
  obtain ⟨-, hrecorded⟩ := Program.resolved_records ht hroot h
  obtain ⟨-, hrecorded'⟩ := Program.resolved_records ht' (C.root_lt hroot) h'
  have hlabels : w'.entryPoints.contains = w.entryPoints.contains :=
    funext (C.contains_eq ht ht' hroot h h')
  have hslots : ∀ c name, (t.tag c).text? = some name →
      w'.assembly.heap.slotType? name = w.assembly.heap.slotType? name := by
    intro c name hname
    rw [Heap.slotType?_eq_kind?, Heap.slotType?_eq_kind?,
      C.kind?_eq hsettled hsettled' (hplain.texts c name hname)]
  -- The array gives the cast its type, and the cast gives the assignment the one it had.
  rw [Workspace.construct?, hrecorded, C.recorded_right ht hroot] at hfill
  obtain ⟨htype, hlookup⟩ := C.meaning_right ht hfill
  have hcast : meaning cfg ht' w'.assembly.heap.slotType? w.entryPoints.contains C.cast =
      ⟨some (.cast type), some type⟩ := C.meaning_cast ht' hlookup hno
  have hmeaning := C.meaning_image ht ht' hslots (by rw [hcast, htype])
  rw [hlabels] at hrecorded'
  refine ⟨fun id => ?_, ?_, ?_⟩
  · rw [hrecorded, hrecorded', C.recorded_image ht ht' hroot (hmeaning id)]
  · rw [Workspace.construct?, hrecorded', C.recorded_cast ht' hroot, hcast]
  · rw [Workspace.nodeType?, hrecorded, C.recorded_right ht hroot, htype]

end Tree.Casting

end SexprAsm
